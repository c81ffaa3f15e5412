import Mathlib.Data.List.Perm.Basic
import Sneks.Lib.Records
import Sneks.Stdlib.Env.Defs

/-!
# The environment is a map

What the calls do to the array they do to the table, and so to the map.
-/

namespace Sneks.Stdlib
open Lib

section
variable {x : CStr} {name value : List Char} {ptr : ℕ}

theorem CStr.text_eq (h : '=' ∈ x.text) : x.text = x.name ++ '=' :: x.value := split_at_sep h

theorem CStr.take_name : x.text.take x.name.length = x.name := by
  have hsplit := List.takeWhile_append_dropWhile (p := (· ≠ '=')) (l := x.text)
  nth_rewrite 1 [← hsplit]
  exact List.take_left

theorem CStr.name_mk (h : '=' ∉ name) : (CStr.mk ptr (name ++ '=' :: value)).name = name := by
  rw [CStr.name, takeWhile_ne_append _ h]
  simp

theorem CStr.value_mk (h : '=' ∉ name) : (CStr.mk ptr (name ++ '=' :: value)).value = value := by
  have htext := CStr.text_eq (x := ⟨ptr, name ++ '=' :: value⟩) (by simp)
  rw [CStr.name_mk h] at htext
  exact (List.cons.inj (List.append_cancel_left htext)).2.symm

end

structure Neat (l : List CStr) : Prop where
  eq : ∀ x ∈ l, '=' ∈ x.text
  one : ∀ x ∈ l, ∀ y ∈ l, x.ptr = y.ptr → x = y
  names : (l.map CStr.name).Nodup
  short : ∀ x ∈ l, x.name.length ≤ SHRT_MAX

namespace Neat
variable {l l' : List CStr} {x y : CStr}

theorem nil : Neat [] where
  eq _ h := nomatch h
  one _ h := nomatch h
  names := List.nodup_nil
  short _ h := nomatch h

theorem of_array {a : EnvArray} (h : a.Built) (ht : a.Tidy) : Neat a.strs where
  eq := h.1
  one := h.2
  names := ht.1
  short := ht.2

theorem perm (h : Neat l) (hp : l.Perm l') : Neat l' where
  eq x hx := h.eq x (hp.mem_iff.mpr hx)
  one x hx y hy := h.one x (hp.mem_iff.mpr hx) y (hp.mem_iff.mpr hy)
  names := (hp.map _).nodup_iff.mp h.names
  short x hx := h.short x (hp.mem_iff.mpr hx)

theorem tail (h : Neat (x :: l)) : Neat l where
  eq y hy := h.eq y (List.mem_cons_of_mem _ hy)
  one y hy z hz := h.one y (List.mem_cons_of_mem _ hy) z (List.mem_cons_of_mem _ hz)
  names := (List.nodup_cons.mp h.names).2
  short y hy := h.short y (List.mem_cons_of_mem _ hy)

theorem notMem (h : Neat (x :: l)) : x.name ∉ l.map CStr.name := (List.nodup_cons.mp h.names).1

theorem ptr_ne (h : Neat (x :: l)) : ∀ y ∈ l, y.ptr ≠ x.ptr := fun y hy hptr => by
  have heq := h.one y (List.mem_cons_of_mem _ hy) x List.mem_cons_self hptr
  exact h.notMem (heq ▸ List.mem_map_of_mem hy)

theorem cons (h : Neat l) (heq : '=' ∈ x.text) (hone : ∀ y ∈ l, y.ptr = x.ptr → y = x)
    (hname : x.name ∉ l.map CStr.name) (hshort : x.name.length ≤ SHRT_MAX) : Neat (x :: l) where
  eq := List.forall_mem_cons.mpr ⟨heq, h.eq⟩
  one := by
    refine List.forall_mem_cons.mpr ⟨List.forall_mem_cons.mpr ⟨fun _ => rfl, fun y hy hptr => ?_⟩, fun y hy => ?_⟩
    · exact (hone y hy hptr.symm).symm
    · exact List.forall_mem_cons.mpr ⟨hone y hy, h.one y hy⟩
  names := List.nodup_cons.mpr ⟨hname, h.names⟩
  short := List.forall_mem_cons.mpr ⟨hshort, h.short⟩

theorem eraseP (h : Neat l) (hx : x ∈ l) : l.Perm (x :: l.eraseP (·.ptr = x.ptr)) := by
  obtain ⟨y, l₁, l₂, -, hptr, heq, herase⟩ := List.exists_of_eraseP (p := (·.ptr = x.ptr)) hx (by simp)
  have hy : y = x := h.one y (by simp [heq]) x hx (by simpa using hptr)
  rw [herase, heq, hy]
  exact List.perm_middle

theorem filter (h : Neat (x :: l)) : (x :: l).filter (·.ptr ≠ x.ptr) = l := by
  rw [List.filter_cons_of_neg (by simp)]
  exact List.filter_eq_self.mpr fun y hy => by simpa using h.ptr_ne y hy

end Neat

-- The table

structure Tabled (ht : List EnvStr) (strs : List CStr) : Prop where
  perm : (ht.map (·.str)).Perm strs
  keylen : ∀ e ∈ ht, e.keylen = e.str.name.length

section
variable {ht : List EnvStr} {strs rest : List CStr} {e old : EnvStr} {key : List Char}

theorem EnvStr.hasKey_iff (h : e.keylen = e.str.name.length) : e.hasKey key = true ↔ e.str.name = key := by
  rw [EnvStr.hasKey, decide_eq_true_eq, h, CStr.take_name]
  constructor
  · rintro ⟨hname, hlen⟩
    rw [hname, ← hlen, List.take_length]
  · rintro rfl
    exact ⟨List.take_length.symm, rfl⟩

theorem htableGet_some (hkey : ∀ e ∈ ht, e.keylen = e.str.name.length) (h : htableGet ht key = some e) :
    e ∈ ht ∧ e.str.name = key := by
  have hmem := List.mem_of_find?_eq_some h
  have hfound := List.find?_some (p := fun e => EnvStr.hasKey e key) h
  exact ⟨hmem, (EnvStr.hasKey_iff (hkey e hmem)).mp hfound⟩

namespace Tabled

theorem mem (h : Tabled ht strs) (he : e ∈ ht) : e.str ∈ strs := h.perm.mem_iff.mp (List.mem_map_of_mem he)

theorem get_eq_none (h : Tabled ht strs) : htableGet ht key = none ↔ key ∉ strs.map CStr.name := by
  rw [htableGet, List.find?_eq_none, ← (h.perm.map CStr.name).mem_iff]
  simp only [List.map_map, List.mem_map, Function.comp_apply, not_exists, not_and]
  exact forall₂_congr fun e he => not_congr (EnvStr.hasKey_iff (h.keylen e he))

theorem get_ne_none (h : Tabled ht strs) : htableGet ht key ≠ none ↔ key ∈ strs.map CStr.name := by
  rw [Ne, h.get_eq_none, not_not]

theorem of_perm (h : Tabled ht strs) (hp : strs.Perm rest) : Tabled ht rest where
  perm := h.perm.trans hp
  keylen := h.keylen

theorem append (h : Tabled ht strs) (he : e.keylen = e.str.name.length) : Tabled (ht ++ [e]) (strs ++ [e.str]) where
  perm := by
    rw [List.map_append]
    exact h.perm.append_right _
  keylen e' he' := by
    rcases List.mem_append.mp he' with hmem | hmem
    · exact h.keylen e' hmem
    · exact (List.mem_singleton.mp hmem) ▸ he

theorem erase (h : Tabled ht (old.str :: strs)) (hold : old ∈ ht) : Tabled (ht.erase old) strs where
  perm := by
    have hcons := (List.perm_cons_erase hold).map (·.str)
    exact (hcons.symm.trans h.perm).cons_inv
  keylen e he := h.keylen e (List.mem_of_mem_erase he)

end Tabled

theorem rebuild_eq (strs : List CStr) (hours : ∀ x ∈ strs, ∀ e ∈ ht, e.str.ptr ≠ x.ptr)
    (hshort : ∀ x ∈ strs, x.name.length ≤ SHRT_MAX) :
    rebuild ht strs = some (strs.map fun x => ⟨x, x.name.length, false⟩) := by
  induction strs with
  | nil => rfl
  | cons x strs ih =>
    have hfind : (ht.find? fun e => e.str.ptr = x.ptr) = none :=
      List.find?_eq_none.mpr fun e he => by simpa using hours x List.mem_cons_self e he
    have hrest := ih (fun y hy => hours y (List.mem_cons_of_mem _ hy)) fun y hy => hshort y (List.mem_cons_of_mem _ hy)
    rw [rebuild, hfind]
    dsimp only
    rw [if_pos (hshort x List.mem_cons_self), hrest]
    rfl

end

namespace Env

/-- **Invariant**: the array is neat, and the table has its strings or those of an array that is not
there any more. -/
structure Sound (s : Env) : Prop where
  neat : Neat s.strs
  keylen : ∀ e ∈ s.ht, e.keylen = e.str.name.length
  tabled : s.synced = true → (s.ht.map (·.str)).Perm s.strs
  apart : s.synced = false → ∀ x ∈ s.strs, ∀ e ∈ s.ht, e.ours = true → e.str.ptr ≠ x.ptr
  blank : s.cached = none → s.ht = []

variable {s s' : Env} {e old : EnvStr} {rest : List CStr} {key : List Char}

theorem synced_iff : s.synced = true ↔ s.cached = s.environ.map (·.addr) := decide_eq_true_iff

theorem Sound.table (h : s.Sound) (hs : s.synced = true) : Tabled s.ht s.strs := ⟨h.tabled hs, h.keylen⟩

theorem Sound.of_tabled {a : EnvArray} (h : Neat a.strs) (ht : Tabled s.ht a.strs) (henviron : s.environ = some a)
    (hcached : s.cached = some a.addr) : s.Sound where
  neat := by rwa [strs, henviron]
  keylen := ht.keylen
  tabled _ := by
    rw [strs, henviron]
    exact ht.perm
  apart hs := by
    have hsynced : s.synced = true := by rw [synced_iff, hcached, henviron]; rfl
    rw [hsynced] at hs
    cases hs
  blank hnone := by
    rw [hcached] at hnone
    cases hnone

theorem Sound.sync (h : s.Sound) : ∃ s', s.sync = some s' ∧ s'.Sound ∧ s'.synced = true ∧ s'.environ = s.environ ∧
    s'.ourEnviron = s.ourEnviron ∧ (s.synced = true → s' = s) ∧ (s.synced = false → ∀ e ∈ s'.ht, e.ours = false) := by
  unfold Env.sync
  cases hs : s.synced with
  | true => exact ⟨s, if_pos rfl, h, hs, rfl, rfl, fun _ => rfl, fun hf => nomatch hf⟩
  | false =>
    have hours : ∀ x ∈ s.strs, ∀ e ∈ s.ht.filter (·.ours), e.str.ptr ≠ x.ptr := fun x hx e he => by
      obtain ⟨hmem, hours⟩ := List.mem_filter.mp he
      exact h.apart hs x hx e hmem hours
    rw [if_neg Bool.false_ne_true, refresh, rebuild_eq s.strs hours h.neat.short]
    refine ⟨_, rfl, ⟨h.neat, fun e he => ?_, fun _ => ?_, fun hf => ?_, fun hnone => ?_⟩, synced_iff.mpr rfl, rfl, rfl,
      (fun hf => nomatch hf), fun _ e he => ?_⟩
    · obtain ⟨x, -, rfl⟩ := List.mem_map.mp he
      rfl
    · rw [List.map_map]
      exact .of_eq (List.map_id _)
    · rw [synced_iff.mpr rfl] at hf
      cases hf
    · have henviron : s.environ = none := Option.map_eq_none_iff.mp hnone
      rw [strs, henviron]
      rfl
    · obtain ⟨x, -, rfl⟩ := List.mem_map.mp he
      rfl

theorem Growable.not (h : s.Growable) : ¬ (s.ourEnviron = true ∧ ∃ a ∈ s.environ, a.heap = false) := by
  rintro ⟨hours, a, ha, hheap⟩
  rw [h hours a ha] at hheap
  cases hheap

theorem append_eq (h : s.Growable) (e : EnvStr) (array : ℕ) :
    s.append e array = some ⟨some ⟨array, true, s.strs ++ [e.str]⟩, some array, true, s.ht ++ [e]⟩ := if_neg h.not

theorem Sound.get (h : s.Sound) (hs : s.synced = true) (hkey : key ∈ s.strs.map CStr.name) :
    ∃ a e, s.environ = some a ∧ htableGet s.ht key = some e ∧ e ∈ s.ht ∧ e.str ∈ a.strs ∧ e.str.name = key := by
  obtain ⟨e, he⟩ := Option.ne_none_iff_exists'.mp ((h.table hs).get_ne_none.mpr hkey)
  obtain ⟨hmem, hname⟩ := htableGet_some h.keylen he
  have hstr := (h.table hs).mem hmem
  cases henviron : s.environ with
  | none =>
    rw [strs, henviron] at hstr
    cases hstr
  | some a =>
    rw [strs, henviron] at hstr
    exact ⟨a, e, rfl, he, hmem, hstr, hname⟩

/-- **`getenv`** is the map. -/
theorem Sound.getenv (h : s.Sound) (key : List Char) :
    ∃ s', s.getenv key = some (mapOf s.strs key, s') ∧ s'.Sound ∧ s'.environ = s.environ := by
  obtain ⟨s', hsync, hsound, hs, henviron, -⟩ := h.sync
  have hstrs : s'.strs = s.strs := by rw [strs, strs, henviron]
  refine ⟨s', ?_, hsound, henviron⟩
  rw [Env.getenv, hsync, Option.bind_some, ← hstrs]
  split
  · next hnone =>
    have hnil : s'.strs = [] := by
      rw [synced_iff, hnone] at hs
      rw [strs, Option.map_eq_none_iff.mp hs.symm]
      rfl
    rw [linear, hnil]
    rfl
  · split
    · next hget => rw [mapOf, keyed_eq_none.mpr ((hsound.table hs).get_eq_none.mp hget)]
    · next e hget =>
      obtain ⟨hmem, rfl⟩ := htableGet_some hsound.keylen hget
      have hstr := (hsound.table hs).mem hmem
      rw [mapOf, keyed_of_mem hsound.neat.names hstr, hsound.keylen e hmem, CStr.text_eq (hsound.neat.eq e.str hstr)]
      simp

theorem Sound.append (h : s.Sound) (hs : s.synced = true) (hg : s.Growable) (hnew : Neat (e.str :: s.strs))
    (hkey : e.keylen = e.str.name.length) (array : ℕ) : ∃ s', s.append e array = some s' ∧ s'.Sound ∧
      mapOf s'.strs = Function.update (mapOf s.strs) e.str.name (some e.str.value) := by
  have hperm : (s.strs ++ [e.str]).Perm (e.str :: s.strs) := List.perm_append_singleton _ _
  have hneat : Neat (s.strs ++ [e.str]) := hnew.perm hperm.symm
  refine ⟨_, append_eq hg e array, .of_tabled hneat ((h.table hs).append hkey) rfl rfl, ?_⟩
  exact (keyed_perm hperm hneat.names).trans keyed_cons

theorem Sound.append_removeOld (h : s.Sound) (hs : s.synced = true) (hg : s.Growable) (hold : old ∈ s.ht)
    (hname : e.str.name = old.str.name) (heq : '=' ∈ e.str.text) (hone : ∀ x ∈ s.strs, x.ptr ≠ e.str.ptr)
    (hkey : e.keylen = e.str.name.length) (array : ℕ) :
    ∃ s', ((s.append e array).bind fun s => s.removeOld old) = some s' ∧ s'.Sound ∧
      mapOf s'.strs = Function.update (mapOf s.strs) e.str.name (some e.str.value) := by
  have hmem : old.str ∈ s.strs := (h.table hs).mem hold
  have hrest := h.neat.eraseP hmem
  generalize hrest' : s.strs.eraseP (·.ptr = old.str.ptr) = rest at hrest
  have hcons : Neat (old.str :: rest) := h.neat.perm hrest
  have hmemRest : ∀ x ∈ rest, x ∈ s.strs := fun x hx => hrest.mem_iff.mpr (List.mem_cons_of_mem _ hx)
  have hperm : (rest ++ [e.str]).Perm (e.str :: rest) := List.perm_append_singleton _ _
  have hneat : Neat (rest ++ [e.str]) := by
    refine (hcons.tail.cons heq (fun x hx hptr => absurd hptr (hone x (hmemRest x hx))) ?_ ?_).perm hperm.symm
    · exact hname ▸ hcons.notMem
    · exact hname ▸ h.neat.short _ hmem
  have hany : (s.strs ++ [e.str]).dropLast.any (·.ptr = old.str.ptr) = true := by
    rw [List.dropLast_concat, List.any_eq_true]
    exact ⟨old.str, hmem, decide_eq_true rfl⟩
  have herase : (s.strs ++ [e.str]).eraseP (·.ptr = old.str.ptr) = rest ++ [e.str] := by
    rw [List.eraseP_append_left (a := old.str) (by simp) _ hmem, hrest']
  have htable : Tabled ((s.ht ++ [e]).erase old) (rest ++ [e.str]) := by
    refine (((h.table hs).append hkey).of_perm ?_).erase (List.mem_append_left _ hold)
    exact hrest.append_right [e.str]
  rw [append_eq hg, Option.bind_some, removeOld, strs, Option.map_some, Option.getD_some, if_pos hany]
  refine ⟨_, rfl, .of_tabled (a := ⟨array, true, _⟩) ?_ ?_ rfl rfl, ?_⟩
  · exact herase ▸ hneat
  · exact herase ▸ htable
  · refine (congrArg mapOf herase).trans ((keyed_perm hperm hneat.names).trans ?_)
    rw [mapOf, keyed_perm hrest h.neat.names]
    exact keyed_replace hname

theorem Sound.replace {a : EnvArray} (h : s.Sound) (hs : s.synced = true) (ha : s.environ = some a)
    (hold : old ∈ s.ht) (hname : e.str.name = old.str.name) (heq : '=' ∈ e.str.text)
    (hone : ∀ x ∈ s.strs, x.ptr = e.str.ptr → x = e.str) (hours : old.ours = true → old.str.ptr ≠ e.str.ptr)
    (hkey : e.keylen = e.str.name.length) : ∃ s', s.replace old e = some s' ∧ s'.Sound ∧
      mapOf s'.strs = Function.update (mapOf s.strs) e.str.name (some e.str.value) := by
  have hstrs : s.strs = a.strs := by rw [strs, ha]; rfl
  have hmem : old.str ∈ a.strs := hstrs ▸ (h.table hs).mem hold
  have hneat : Neat a.strs := hstrs ▸ h.neat
  have hi : a.strs.findIdx (·.ptr = old.str.ptr) < a.strs.length :=
    List.findIdx_lt_length_of_exists ⟨old.str, hmem, decide_eq_true rfl⟩
  have hat : a.strs[a.strs.findIdx (·.ptr = old.str.ptr)] = old.str := by
    have hptr := List.findIdx_getElem (w := hi)
    exact hneat.one _ (List.getElem_mem hi) _ hmem (of_decide_eq_true hptr)
  rw [Env.replace, ha, Option.bind_some]
  dsimp only
  rw [if_pos ⟨hi, fun ⟨hold, hptr⟩ => hours hold hptr⟩]
  refine ⟨_, rfl, ?_⟩
  generalize a.strs.findIdx (·.ptr = old.str.ptr) = i at hi hat
  have hrest : a.strs.Perm (old.str :: a.strs.eraseIdx i) := hat ▸ (List.getElem_cons_eraseIdx_perm hi).symm
  have hset : (a.strs.set i e.str).Perm (e.str :: a.strs.eraseIdx i) := List.set_perm_cons_eraseIdx hi e.str
  generalize a.strs.eraseIdx i = rest at hrest hset
  have hcons : Neat (old.str :: rest) := hneat.perm hrest
  have hnew : Neat (e.str :: rest) := by
    refine hcons.tail.cons heq (fun x hx hptr => ?_) (hname ▸ hcons.notMem) (hname ▸ hneat.short _ hmem)
    exact hone x (hstrs ▸ hrest.mem_iff.mpr (List.mem_cons_of_mem _ hx)) hptr
  have htable : Tabled ((s.ht ++ [e]).erase old) (a.strs.set i e.str) := by
    have happend : Tabled (s.ht ++ [e]) (a.strs ++ [e.str]) := (hstrs ▸ h.table hs).append hkey
    have hshift := (hrest.append_right [e.str]).trans (.cons _ (List.perm_append_singleton _ _))
    exact ((happend.of_perm hshift).erase (List.mem_append_left _ hold)).of_perm hset.symm
  constructor
  · refine .of_tabled (hnew.perm hset.symm) htable rfl ?_
    rw [synced_iff, ha] at hs
    exact hs
  · refine (keyed_perm hset (hnew.perm hset.symm).names).trans ?_
    rw [hstrs, mapOf, keyed_perm hrest hneat.names]
    exact keyed_replace hname

theorem Sound.remove {a : EnvArray} (h : s.Sound) (hs : s.synced = true) (ha : s.environ = some a) (hold : old ∈ s.ht) :
    ∃ s', s.remove old = some s' ∧ s'.Sound ∧
      mapOf s'.strs = Function.update (mapOf s.strs) old.str.name none := by
  have hstrs : s.strs = a.strs := by rw [strs, ha]; rfl
  have hmem : old.str ∈ a.strs := hstrs ▸ (h.table hs).mem hold
  have hneat : Neat a.strs := hstrs ▸ h.neat
  have hrest := hneat.eraseP hmem
  generalize a.strs.eraseP (·.ptr = old.str.ptr) = rest at hrest
  have hcons : Neat (old.str :: rest) := hneat.perm hrest
  have hfilter : (a.strs.filter (·.ptr ≠ old.str.ptr)).Perm rest := by
    have hperm := hrest.filter (·.ptr ≠ old.str.ptr)
    rwa [hcons.filter] at hperm
  have htable : Tabled (s.ht.erase old) rest := ((hstrs ▸ h.table hs).of_perm hrest).erase hold
  rw [Env.remove, ha, Option.map_some]
  refine ⟨_, rfl, ?_, ?_⟩
  · refine .of_tabled (hcons.tail.perm hfilter.symm) (htable.of_perm hfilter.symm) rfl ?_
    rw [synced_iff, ha] at hs
    exact hs
  · refine (keyed_perm hfilter (hcons.tail.perm hfilter.symm).names).trans ?_
    rw [hstrs, mapOf, keyed_perm hrest hneat.names]
    exact keyed_of_cons hcons.notMem

-- Each call

def Serves (s : Env) (op : EnvOp) : Prop :=
  ∃ s', s.exec op = some s' ∧ s'.Sound ∧ mapOf s'.strs = (mapOf s.strs : EnvMap).apply op

theorem mapOf_ne_none {strs : List CStr} : mapOf strs key ≠ none ↔ key ∈ strs.map CStr.name := by
  rw [mapOf, Ne, keyed_eq_none, not_not]

theorem Sound.old_iff {name value : List Char} {overwrite : Bool} {str array : ℕ} (h : s.Sound)
    (ht : s.Tidy (.setenv (some name) value overwrite str array))
    (hvalid : ¬ (name = [] ∨ '=' ∈ name) ∧ ¬ SHRT_MAX < name.length) :
    (htableGet s.ht name ≠ none ↔ name ∈ s.strs.map CStr.name) ∧
      (s.synced = false → name ∈ s.strs.map CStr.name → overwrite = false) ∧
      (name ∈ s.strs.map CStr.name ∧ overwrite = false ∨ s.Growable) := by
  obtain ⟨hname, hlong⟩ := hvalid
  obtain ⟨hcurrent, hgrow⟩ := ((ht.resolve_left (not_or.mp hname).1).resolve_left (not_or.mp hname).2).resolve_left hlong
  cases hs : s.synced with
  | true => exact ⟨(h.table hs).get_ne_none, (fun hf => nomatch hf), hgrow⟩
  | false =>
    rw [hs] at hcurrent
    obtain ⟨hiff, hover⟩ := hcurrent.resolve_left Bool.false_ne_true
    exact ⟨hiff, fun _ => hover, hgrow⟩

/-- **`setenv`** without `overwrite` leaves a name as it is. -/
theorem Sound.setenv_keeps {name value : List Char} {str array : ℕ} (h : s.Sound)
    (ht : s.Tidy (.setenv (some name) value false str array)) (hkey : name ∈ s.strs.map CStr.name) :
    ∃ r, s.setenv (some name) value false str array = some (r, s) := by
  rw [Env.setenv]
  dsimp only
  split
  · exact ⟨_, rfl⟩
  · split
    · exact ⟨_, rfl⟩
    · next hname hlong =>
      rw [if_pos ⟨(h.old_iff ht ⟨hname, hlong⟩).1.mpr hkey, rfl⟩]
      exact ⟨_, rfl⟩

theorem Sound.setenv_sets {name value : List Char} {overwrite : Bool} {str array : ℕ} (h : s.Sound)
    (hp : ∀ x ∈ s.strs, x.ptr ≠ str) (ht : s.Tidy (.setenv (some name) value overwrite str array))
    (hname : ¬ (name = [] ∨ '=' ∈ name)) (hlong : ¬ SHRT_MAX < name.length)
    (hset : ¬ (overwrite = false ∧ mapOf s.strs name ≠ none)) :
    ∃ r s', s.setenv (some name) value overwrite str array = some (r, s') ∧ s'.Sound ∧
      mapOf s'.strs = Function.update (mapOf s.strs) name (some value) := by
  obtain ⟨hfound, hcurrent, hgrow⟩ := h.old_iff ht ⟨hname, hlong⟩
  rw [mapOf_ne_none] at hset
  have hg : s.Growable := hgrow.resolve_left fun hkeep => hset hkeep.symm
  have heq : '=' ∉ name := fun heq => hname (.inr heq)
  have hstrName : (CStr.mk str (name ++ '=' :: value)).name = name := CStr.name_mk heq
  have hstrValue : (CStr.mk str (name ++ '=' :: value)).value = value := CStr.value_mk heq
  rw [Env.setenv]
  dsimp only
  rw [if_neg hname, if_neg hlong, if_neg fun hold => hset ⟨hold.2, hfound.mp hold.1⟩]
  obtain ⟨s', hsync, hsound, hs, henviron, hours, hsame, -⟩ := h.sync
  have hstrs : s'.strs = s.strs := by rw [strs, strs, henviron]
  have hg' : s'.Growable := by rwa [Growable, hours, henviron]
  rw [hsync, Option.bind_some]
  generalize hnew : (⟨⟨str, name ++ '=' :: value⟩, name.length, true⟩ : EnvStr) = e
  have hkeylen : e.keylen = e.str.name.length := by rw [← hnew, hstrName]
  have heqStr : '=' ∈ e.str.text := by rw [← hnew]; simp
  have hptr : ∀ x ∈ s'.strs, x.ptr ≠ e.str.ptr := by rw [← hnew, hstrs]; exact hp
  have hgoal : Function.update (mapOf s.strs) name (some value) =
      Function.update (mapOf s'.strs) e.str.name (some e.str.value) := by
    rw [← hnew, hstrs, hstrName, hstrValue]
  rw [hgoal]
  cases hold : htableGet s.ht name with
  | none =>
    have hnot : e.str.name ∉ s'.strs.map CStr.name := by
      rw [← hnew, hstrs, hstrName]
      exact fun hmem => hfound.mpr hmem hold
    have hshort : e.str.name.length ≤ SHRT_MAX := by
      rw [← hnew, hstrName]
      exact Nat.not_lt.mp hlong
    obtain ⟨s'', happend, hresult⟩ := hsound.append hs hg'
      (hsound.neat.cons heqStr (fun x hx hx' => absurd hx' (hptr x hx)) hnot hshort) hkeylen array
    rw [happend]
    exact ⟨_, s'', rfl, hresult⟩
  | some old =>
    have hmem : name ∈ s.strs.map CStr.name := hfound.mp (by rw [hold]; exact Option.some_ne_none old)
    have hsynced : s.synced = true := by
      rw [← Bool.not_eq_false]
      exact fun hf => hset ⟨hcurrent hf hmem, hmem⟩
    obtain rfl := hsame hsynced
    obtain ⟨holdMem, holdName⟩ := htableGet_some h.keylen hold
    have hsameName : e.str.name = old.str.name := by rw [← hnew, hstrName, holdName]
    obtain ⟨s'', hremove, hresult⟩ := h.append_removeOld hs hg holdMem hsameName heqStr hptr hkeylen array
    obtain ⟨s₁, happend, hrest⟩ := Option.bind_eq_some_iff.mp hremove
    rw [happend, Option.bind_some]
    dsimp only
    rw [if_pos (.inl hs), hrest]
    exact ⟨_, s'', rfl, hresult⟩

/-- **`setenv`**. -/
theorem Sound.setenv {name value : List Char} {overwrite : Bool} {str array : ℕ} (h : s.Sound)
    (hp : s.Possible (.setenv (some name) value overwrite str array))
    (ht : s.Tidy (.setenv (some name) value overwrite str array)) :
    s.Serves (.setenv (some name) value overwrite str array) := by
  rw [Serves, exec, EnvMap.apply]
  by_cases hname : name = [] ∨ '=' ∈ name
  · rw [Env.setenv, if_pos hname, if_pos (or_assoc.mp (.inl hname))]
    exact ⟨s, rfl, h, rfl⟩
  by_cases hlong : SHRT_MAX < name.length
  · rw [Env.setenv, if_neg hname, if_pos hlong, if_pos (.inr (.inr hlong))]
    exact ⟨s, rfl, h, rfl⟩
  rw [if_neg fun hbad => (or_assoc.mpr hbad).elim hname hlong]
  by_cases hset : overwrite = false ∧ mapOf s.strs name ≠ none
  · obtain ⟨rfl, hkey⟩ := hset
    obtain ⟨r, hkeep⟩ := h.setenv_keeps ht (mapOf_ne_none.mp hkey)
    rw [if_pos ⟨rfl, hkey⟩, hkeep]
    exact ⟨s, rfl, h, rfl⟩
  · obtain ⟨r, s', hsets, hresult⟩ := h.setenv_sets hp ht hname hlong hset
    rw [if_neg hset, hsets]
    exact ⟨s', rfl, hresult⟩

/-- **`unsetenv`**. -/
theorem Sound.unsetenv (h : s.Sound) (name : List Char) : s.Serves (.unsetenv (some name)) := by
  rw [Serves, exec, EnvMap.apply, Env.unsetenv]
  split
  · exact ⟨s, rfl, h, rfl⟩
  obtain ⟨s', hsync, hsound, hs, henviron, -⟩ := h.sync
  have hstrs : s'.strs = s.strs := by rw [strs, strs, henviron]
  rw [hsync, Option.bind_some, ← hstrs]
  by_cases hmem : name ∈ s'.strs.map CStr.name
  · obtain ⟨a, e, ha, hget, he, -, rfl⟩ := hsound.get hs hmem
    obtain ⟨s'', hremove, hresult⟩ := hsound.remove hs ha he
    rw [hget]
    dsimp only
    rw [hremove]
    exact ⟨s'', rfl, hresult⟩
  · rw [(hsound.table hs).get_eq_none.mpr hmem]
    exact ⟨s', rfl, hsound, (Function.update_eq_self_iff.mpr (keyed_eq_none.mpr hmem).symm).symm⟩

/-- **`putenv`**. -/
theorem Sound.putenv {string : CStr} {array : ℕ} (h : s.Sound) (hp : s.Possible (.putenv (some string) array))
    (ht : s.Tidy (.putenv (some string) array)) : s.Serves (.putenv (some string) array) := by
  rw [Serves, exec, EnvMap.apply, Env.putenv]
  dsimp only
  split
  · next hbad => exact ⟨s, rfl, h, (if_pos (or_assoc.mp (.inl hbad))).symm⟩
  split
  · next hlong => exact ⟨s, rfl, h, (if_pos (.inr (.inr hlong))).symm⟩
  next hbad hlong =>
  rw [if_neg fun hor => (or_assoc.mpr hor).elim hbad hlong]
  obtain ⟨heq, hne⟩ := not_or.mp hbad
  obtain ⟨hours, hgrow⟩ := ((ht.resolve_left heq).resolve_left hne).resolve_left hlong
  obtain ⟨s', hsync, hsound, hs, henviron, hourEnviron, hsame, hfresh⟩ := h.sync
  have hstrs : s'.strs = s.strs := by rw [strs, strs, henviron]
  rw [hsync, Option.bind_some, ← hstrs]
  rw [Possible, ← hstrs] at hp
  by_cases hmem : string.name ∈ s'.strs.map CStr.name
  · obtain ⟨a, old, ha, hget, hold, -, hname⟩ := hsound.get hs hmem
    have hoursOld : old.ours = true → old.str.ptr ≠ string.ptr := fun hoursOld => by
      cases hcurrent : s.synced with
      | true =>
        obtain rfl := hsame hcurrent
        exact hours old hold hoursOld
      | false =>
        rw [hfresh hcurrent old hold] at hoursOld
        cases hoursOld
    obtain ⟨s'', hreplace, hresult⟩ := hsound.replace (e := ⟨string, string.name.length, false⟩) hs ha hold hname.symm
      (not_not.mp heq) hp hoursOld rfl
    rw [hget]
    dsimp only
    rw [hreplace]
    exact ⟨s'', rfl, hresult⟩
  · have hg : s'.Growable := by
      rw [Growable, hourEnviron, henviron]
      exact hgrow.resolve_left (hstrs ▸ hmem)
    obtain ⟨s'', happend, hresult⟩ := hsound.append (e := ⟨string, string.name.length, false⟩) hs hg
      (hsound.neat.cons (not_not.mp heq) hp hmem (Nat.not_lt.mp hlong)) rfl array
    rw [(hsound.table hs).get_eq_none.mpr hmem]
    dsimp only
    rw [happend]
    exact ⟨s'', rfl, hresult⟩

/-- **`clearenv`**. -/
theorem Sound.clearenv (h : s.Sound) (ht : s.Growable) : s.Serves .clearenv := by
  obtain ⟨s', hsync, -, -, henviron, hours, -⟩ := h.sync
  have hg : s'.Growable := by rwa [Growable, hours, henviron]
  rw [Serves, exec, Env.clearenv, hsync, Option.bind_some, if_neg hg.not]
  refine ⟨_, rfl, ⟨Neat.nil, fun _ he => (nomatch he), fun _ => .nil, fun hf => ?_, fun _ => rfl⟩, rfl⟩
  rw [synced_iff.mpr rfl] at hf
  cases hf

theorem Sound.assign {array : Option EnvArray} (h : s.Sound) (hp : s.Possible (.assign array))
    (ht : s.Tidy (.assign array)) : s.Serves (.assign array) := by
  refine ⟨_, rfl, ?_, rfl⟩
  cases array with
  | none =>
    refine ⟨Neat.nil, h.keylen, fun hs => ?_, fun _ x hx => (nomatch hx), h.blank⟩
    rw [h.blank (synced_iff.mp hs)]
    exact .nil
  | some a => exact ⟨.of_array hp.1 ht.1, h.keylen, fun hs => ht.2 (synced_iff.mp hs), fun _ => hp.2, h.blank⟩

/-- **Step lemma**: what is made as it should be serves. -/
theorem Sound.exec {op : EnvOp} (h : s.Sound) (hp : s.Possible op) (ht : s.Tidy op) : s.Serves op := by
  match op with
  | .getenv key =>
    obtain ⟨s', hget, hsound, henviron⟩ := h.getenv key
    refine ⟨s', by rw [Env.exec, hget]; rfl, hsound, ?_⟩
    rw [strs, henviron]
    rfl
  | .setenv none .. => exact ⟨s, rfl, h, rfl⟩
  | .setenv (some _) .. => exact h.setenv hp ht
  | .unsetenv none => exact ⟨s, rfl, h, rfl⟩
  | .unsetenv (some name) => exact h.unsetenv name
  | .putenv none _ => exact ⟨s, rfl, h, rfl⟩
  | .putenv (some _) _ => exact h.putenv hp ht
  | .clearenv => exact h.clearenv ht
  | .assign _ => exact h.assign hp ht

theorem sound_init {environ : Option EnvArray} (h : ∀ a ∈ environ, a.Built ∧ a.Tidy) : (init environ).Sound where
  neat := by
    cases environ with
    | none => exact Neat.nil
    | some a => exact .of_array (h a rfl).1 (h a rfl).2
  keylen _ he := nomatch he
  tabled hs := by
    have henviron := (synced_iff.mp hs).symm
    rw [strs, Option.map_eq_none_iff.mp henviron]
    exact .nil
  apart _ _ _ _ he := nomatch he
  blank _ := rfl

end Env

namespace Mirror
variable {environ : Option EnvArray} {ops : List EnvOp} {t : Mirror}

/-- **Run lemma**: the environment stays sound, and the map is its map. -/
theorem sound_run (hinit : ∀ a ∈ environ, a.Built ∧ a.Tidy)
    (h : Run exec (fun t op => t.env.Possible op ∧ t.env.Tidy op) (init environ) ops t) :
    t.env.Sound ∧ t.map = mapOf t.env.strs := by
  refine h.invariant (I := fun t => t.env.Sound ∧ t.map = mapOf t.env.strs) ?_ ⟨Env.sound_init hinit, rfl⟩
  rintro t op u ⟨hp, ht⟩ hexec ⟨hsound, hmap⟩
  obtain ⟨s', hs', hsound', hmap'⟩ := hsound.exec hp ht
  rw [exec, hs', Option.map_some, Option.some.injEq] at hexec
  subst hexec
  exact ⟨hsound', by rw [hmap', hmap]⟩

/-- **The environment is a map** in every run in which each call is tidy: `getenv` is what the map
has, `setenv` without `overwrite` leaves a name that is there, no name is in `environ` twice, and
every tidy call comes back. -/
theorem map_law (hinit : ∀ a ∈ environ, a.Built ∧ a.Tidy)
    (h : Run exec (fun t op => t.env.Possible op ∧ t.env.Tidy op) (init environ) ops t) :
    (∀ key, ∃ env, t.env.getenv key = some (t.map key, env)) ∧
      (∀ name value str array, t.env.Tidy (.setenv (some name) value false str array) → t.map name ≠ none →
        ∃ r, t.env.setenv (some name) value false str array = some (r, t.env)) ∧
      (t.env.strs.map CStr.name).Nodup ∧
      ∀ op, t.env.Possible op → t.env.Tidy op → ∃ u, t.exec op = some u := by
  obtain ⟨hsound, hmap⟩ := sound_run hinit h
  refine ⟨fun key => ?_, fun name value str array ht hname => ?_, hsound.neat.names, fun op hp ht => ?_⟩
  · obtain ⟨env, henv, -⟩ := hsound.getenv key
    exact ⟨env, hmap ▸ henv⟩
  · rw [hmap] at hname
    exact hsound.setenv_keeps ht (Env.mapOf_ne_none.mp hname)
  · obtain ⟨s', hs', -⟩ := hsound.exec hp ht
    exact ⟨_, by rw [exec, hs']; rfl⟩

/-- A string is set over, another is taken out, and a third is put in the place of the first. -/
theorem map_law_run : ∃ t : Mirror, (∀ key, ∃ env, t.env.getenv key = some (t.map key, env)) ∧
    t.map ['K'] = some ['3'] ∧ t.map ['L'] = none := by
  have hrun := Run.exists_of_evalRun exec (fun t op => t.env.Possible op ∧ t.env.Tidy op)
    (init (some ⟨1, false, [⟨10, ['K', '=', '1']⟩, ⟨11, ['L', '=', '5']⟩]⟩))
    [.getenv ['K'], .setenv (some ['K']) ['2'] true 20 2, .unsetenv (some ['L']), .putenv (some ⟨12, ['K', '=', '3']⟩) 3]
    (fun t => (t.map ['K'], t.map ['L'])) (some ['3'], none) (by decide)
  obtain ⟨t, h, hmaps⟩ := hrun
  exact ⟨t, (map_law (by decide) h).1, congrArg Prod.fst hmaps, congrArg Prod.snd hmaps⟩

/-- The table is still that of an array which has the name, and `setenv` leaves it so. -/
theorem stale_table : ∃ (a : EnvArray) (ops : List EnvOp) (t : Mirror), a.Built ∧
    Run exec (fun t op => t.env.Possible op) (init (some a)) ops t ∧
      (t.env.getenv ['K']).map Prod.fst = some none ∧ t.map ['K'] = some ['2'] := by
  have hrun := Run.exists_of_evalRun exec (fun t op => t.env.Possible op)
    (init (some ⟨1, false, [⟨10, ['K', '=', '1']⟩]⟩))
    [.getenv ['K'], .assign (some ⟨2, false, [⟨11, ['L', '=', '2']⟩]⟩), .setenv (some ['K']) ['2'] false 20 3]
    (fun t => ((t.env.getenv ['K']).map Prod.fst, t.map ['K'])) (some none, some ['2']) (by decide)
  obtain ⟨t, h, hget⟩ := hrun
  exact ⟨_, _, t, by decide, h, congrArg Prod.fst hget, congrArg Prod.snd hget⟩

end Mirror

end Sneks.Stdlib

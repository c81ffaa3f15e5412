import Sneks.Exec.Startup.Packing

/-!
# What arrives of the start-up stack

Where words and strings have room in a page, the program finds at its stack pointer what was passed to it.
An image of more pages does not get there, whatever becomes of a call with more data than a page.
-/

namespace Sneks.Exec.Startup
open Lib

variable {heap : Heap} {env : Env} {root : Root} {child : Child} {i : Input} {vals : ℕ → Option ℕ}

-- The image

section

variable {argv envp : Split} {done : List Auxv} {p : Pack} {b : Built} {k : ℕ}

theorem le_ceil16 (n : ℕ) : n ≤ ceil16 n := by
  rw [ceil16]
  omega

def bodySpace (root : Root) (i : Input) (vals : ℕ → Option ℕ) : ℕ :=
  ceil16 (i.argbuf.length + i.envbuf.length + max 1 (auxLen root vals) + 2)

/-- An image of whole pages, with the words and the strings as far from its end as they are to be from the top
    of the stack. -/
structure Laid (root : Root) (child : Child) (i : Input) (vals : ℕ → Option ℕ) (argv envp : Split) (done : List Auxv)
    (p : Pack) (b : Built) : Prop where
  length : b.image.length = (stackSpace root i vals + 4095) / 4096 * 4096
  sp : b.sp = Vm.wordSub child.sp (stackSpace root i vals)
  head : ∃ before after, b.image = before ++ (headWords child i argv envp done (bodySpace root i vals)).flatMap (leBytes 4) ++ after ∧
    before.length + stackSpace root i vals = b.image.length
  body : ∃ before after, b.image = before ++ bodyBytes argv envp p ++ after ∧
    before.length + bodySpace root i vals = b.image.length

theorem length_headWords {space : ℕ} : (headWords child i argv envp done space).length =
    argv.offsets.length + envp.offsets.length + 2 * done.length + 6 := by
  have hpairs : ∀ (l : List Auxv) (f g : Auxv → ℕ), (l.flatMap fun e => [f e, g e]).length = 2 * l.length := by
    intro l f g
    induction l with
    | nil => rfl
    | cons e l ih =>
      rw [List.flatMap_cons, List.length_append, ih, List.length_cons, List.length_cons, List.length_cons]
      exact (Nat.mul_succ 2 _ ▸ Nat.add_comm _ _)
  simp only [headWords, List.length_append, List.length_map, hpairs, List.length_cons, List.length_nil]
  omega

theorem length_words (ws : List ℕ) : (ws.flatMap (leBytes 4)).length = 4 * ws.length := by
  induction ws with
  | nil => rfl
  | cons w ws ih =>
    rw [List.flatMap_cons, List.length_append, ih, length_leBytes, List.length_cons]
    omega

theorem Packed.length_auxbuf {l : List (ℕ × ℕ)} (h : Packed root l k done p) :
    (if p.pos = 0 then [0] else p.buf).length = max 1 k := by
  rw [h.pos]
  split
  · next hzero =>
    rw [hzero]
    rfl
  · rw [h.length]
    omega

theorem length_bodyBytes {l : List (ℕ × ℕ)} (hargv : Parted i.argbuf argv) (henvp : Parted i.envbuf envp)
    (hp : Packed root l k done p) : (bodyBytes argv envp p).length = i.argbuf.length + i.envbuf.length + max 1 k + 2 := by
  rw [bodyBytes, List.length_append, hp.length_auxbuf, List.length_append, List.length_append, List.length_append, hargv.buf,
    henvp.buf, List.length_singleton]
  omega

theorem length_gap (start n : ℕ) : (gap env start n).length = n := by
  rw [gap, List.length_map, List.length_range']

theorem layOut_spec {nPages bodySpace metaSpace : ℕ} {head : List ℕ} {body : List UInt8} (hhead : 4 * head.length ≤ metaSpace)
    (hbody : body.length ≤ bodySpace) (hpages : bodySpace + metaSpace ≤ nPages * 4096) :
    (layOut env nPages bodySpace metaSpace head body).length = nPages * 4096 ∧
      (∃ before after, layOut env nPages bodySpace metaSpace head body = before ++ head.flatMap (leBytes 4) ++ after ∧
        before.length + (bodySpace + metaSpace) = nPages * 4096) ∧
      ∃ before after, layOut env nPages bodySpace metaSpace head body = before ++ body ++ after ∧
        before.length + bodySpace = nPages * 4096 := by
  obtain ⟨g₁, g₂, g₃, heq, h₁, h₂, h₃⟩ : ∃ g₁ g₂ g₃, layOut env nPages bodySpace metaSpace head body =
      g₁ ++ head.flatMap (leBytes 4) ++ g₂ ++ body ++ g₃ ∧ g₁.length = nPages * 4096 - bodySpace - metaSpace ∧
        g₂.length = metaSpace - 4 * head.length ∧ g₃.length = bodySpace - body.length :=
    ⟨_, _, _, rfl, length_gap _ _, length_gap _ _, length_gap _ _⟩
  rw [heq]
  refine ⟨?_, ⟨g₁, g₂ ++ body ++ g₃, by simp only [List.append_assoc], by omega⟩, _, g₃, rfl, ?_⟩
  · simp only [List.length_append, length_words, h₁, h₂, h₃]
    omega
  · simp only [List.length_append, length_words, h₁, h₂]
    omega

theorem pack_laid (hargv : Parted i.argbuf argv) (henvp : Parted i.envbuf envp) (hp : AllPacked root vals done p) :
    (pack env child i argv envp done p = some none ∧ ∃ n, env.heap n = none) ∨
      ∃ b, pack env child i argv envp done p = some (some b) ∧ Laid root child i vals argv envp done p b := by
  have hbody := length_bodyBytes hargv henvp hp.packed
  have hcount : done.length = (auxvList vals).length := hp.packed.entries.length_eq
  have haux : argv.len + envp.len + (max 1 p.pos - 1) + 3 = i.argbuf.length + i.envbuf.length + max 1 (auxLen root vals) + 2 := by
    rw [hargv.len, henvp.len, hp.packed.pos]
    omega
  have hhead : (headWords child i argv envp done (bodySpace root i vals)).length =
      1 + 1 + argv.offsets.length + 1 + envp.offsets.length + 1 + (done.length + 1) * 2 := by
    rw [length_headWords]
    omega
  have hmeta : (headWords child i argv envp done (bodySpace root i vals)).length =
      (records RECSEP i.argbuf).length + (records RECSEP i.envbuf).length + 2 * (auxvList vals).length + 6 := by
    rw [length_headWords, hargv.count, henvp.count, hcount]
  have hspace : bodySpace root i vals + ceil16 (4 * (headWords child i argv envp done (bodySpace root i vals)).length) =
      stackSpace root i vals := by
    rw [hmeta]
    rfl
  have hmetaRoom := le_ceil16 (4 * (headWords child i argv envp done (bodySpace root i vals)).length)
  have hbodyRoom : (bodyBytes argv envp p).length ≤ bodySpace root i vals := hbody ▸ le_ceil16 _
  have hin := hp.inside
  have hpages : stackSpace root i vals ≤ (stackSpace root i vals + 4095) / 4096 * 4096 := by omega
  rw [← hspace] at hpages
  rw [pack]
  dsimp only
  rw [haux, ← hhead]
  split
  · next hnone => exact .inl ⟨rfl, _, hnone⟩
  · split
    · next hbad => exact absurd hbad (not_or.mpr ⟨not_not_intro rfl, Nat.not_lt.mpr hmetaRoom⟩)
    · split
      · next hbad => exact absurd hbad (not_or.mpr ⟨by omega, not_not_intro hbody⟩)
      · obtain ⟨hlength, hhead, hbody⟩ := @layOut_spec env _ _ _ _ _ hmetaRoom hbodyRoom hpages
        rw [← hlength] at hhead hbody
        refine .inr ⟨_, rfl, ?_, ?_, ?_, hbody⟩
        · rw [← hspace]
          exact hlength
        · rw [← hspace]
          rfl
        · rw [← hspace]
          exact hhead

end

-- What is found

section

variable {mem : ChildMem} {a : ℕ}

theorem holds_mid {image before mid after : List UInt8} (h : Lib.Holds mem a image) (heq : image = before ++ mid ++ after) :
    Lib.Holds mem (a + before.length) mid := by
  rw [heq] at h
  exact h.left.right

theorem stringsAt_words {offs rest : List ℕ} {f : ℕ → ℕ} {s : ℕ → List UInt8}
    (h : Lib.Holds mem a ((offs.map f ++ 0 :: rest).flatMap (leBytes 4)))
    (hstr : ∀ off ∈ offs, 0 < f off ∧ f off < 2 ^ 32 ∧ StringAt mem (f off) (s off)) :
    StringsAt mem a (offs.map s) ∧ Lib.Holds mem (a + 4 * (offs.length + 1)) (rest.flatMap (leBytes 4)) := by
  induction offs generalizing a with
  | nil => exact ⟨h.words.1, h.words.2⟩
  | cons off offs ih =>
    obtain ⟨⟨hpos, hlt, hat⟩, hstr⟩ := List.forall_mem_cons.mp hstr
    obtain ⟨hword, hnext⟩ := h.words
    obtain ⟨hall, hafter⟩ := ih hnext hstr
    rw [Nat.mod_eq_of_lt hlt] at hword
    refine ⟨⟨⟨f off, Nat.pos_iff_ne_zero.mp hpos, hword, hat⟩, hall⟩, ?_⟩
    rw [List.length_cons]
    convert hafter using 1
    omega

theorem auxvAt_words {done : List Auxv} {l : List (ℕ × ℕ)} {f : Auxv → ℕ}
    (h : Lib.Holds mem a ((done.flatMap (fun e => [e.type, f e]) ++ [AT_NULL, 0]).flatMap (leBytes 4)))
    (hall : List.Forall₂ (fun e x => e.type = x.1 ∧ x.1 ≠ AT_NULL ∧ x.1 < 2 ^ 32 ∧ f e < 2 ^ 32 ∧
      (auxVal root x.1 x.2).At mem (f e)) done l) :
    AuxvAt mem a (l.map fun x => (x.1, auxVal root x.1 x.2)) := by
  induction hall generalizing a with
  | nil => exact h.words.1
  | cons hx _ ih =>
    obtain ⟨htype, hne, hlt, hval, hat⟩ := hx
    obtain ⟨hname, hnext⟩ := h.words
    obtain ⟨hword, hrest⟩ := hnext.words
    rw [htype, Nat.mod_eq_of_lt hlt] at hname
    rw [Nat.mod_eq_of_lt hval] at hword
    exact ⟨⟨hne, hname, _, hword, hat⟩, ih hrest⟩

theorem forall₂_of_mem {α β : Type*} {R S : α → β → Prop} {l : List α} {l' : List β} (h : List.Forall₂ R l l')
    (himp : ∀ a b, b ∈ l' → R a b → S a b) : List.Forall₂ S l l' := by
  induction h with
  | nil => exact .nil
  | cons hab _ ih => exact .cons (himp _ _ List.mem_cons_self hab) (ih fun a b hb => himp a b (List.mem_cons_of_mem _ hb))

variable {argv envp : Split} {done : List Auxv} {p : Pack} {k base : ℕ}

theorem EntryIn.at {l : List (ℕ × ℕ)} {e : Auxv} {x : ℕ × ℕ} (h : EntryIn root p.buf e x) (hp : Packed root l k done p)
    (haux : Lib.Holds mem base (if p.pos = 0 then [0] else p.buf)) (hfits : base + max 1 k < 2 ^ 32) (hx : x.2 < 2 ^ 32) :
    (if e.off then e.val + base else e.val) < 2 ^ 32 ∧ (auxVal root x.1 x.2).At mem (if e.off then e.val + base else e.val) := by
  obtain ⟨-, hentry⟩ := h
  rw [auxVal]
  split at hentry
  · next hplain =>
    obtain ⟨hoff, hval⟩ := hentry
    rw [if_pos hplain, hoff, if_neg Bool.false_ne_true, hval]
    exact ⟨hx, rfl⟩
  · next hstr =>
    obtain ⟨hoff, before, after, hbuf, hlen⟩ := hentry
    have hpointee : 0 < (pointee root x.1 x.2).length := by
      rw [pointee]
      split
      · rw [root.length_random]
        exact Nat.succ_pos 15
      · rw [List.length_append]
        exact Nat.succ_pos _
    have htotal : p.buf.length = before.length + (pointee root x.1 x.2).length + after.length := by
      rw [hbuf, List.length_append, List.length_append]
    have hk := hp.length
    rw [hp.pos, if_neg (by omega)] at haux
    have hmid := holds_mid haux hbuf
    rw [hlen, Nat.add_comm] at hmid
    rw [if_neg hstr, hoff, if_pos rfl]
    refine ⟨by omega, ?_⟩
    rw [pointee] at hmid
    split
    · next hrandom =>
      rw [if_pos hrandom] at hmid
      exact hmid
    · next hne =>
      rw [if_neg hne] at hmid
      exact ⟨(root.text x.2).nonul, hmid⟩

theorem reads_of_holds (hargv : Parted i.argbuf argv) (henvp : Parted i.envbuf envp) (hp : AllPacked root vals done p)
    (hvals : Plausible vals) (hpage : stackSpace root i vals ≤ 4096)
    (hhead : Lib.Holds mem (child.sp - stackSpace root i vals)
      ((headWords child i argv envp done (bodySpace root i vals)).flatMap (leBytes 4)))
    (hbody : Lib.Holds mem (child.sp - bodySpace root i vals) (bodyBytes argv envp p)) :
    Reads root i vals mem (child.sp - stackSpace root i vals) := by
  have hge := child.ge
  have hlt := child.lt
  have hle : bodySpace root i vals ≤ stackSpace root i vals := Nat.le_add_right _ _
  have hlen := length_bodyBytes hargv henvp hp.packed
  have hroom : (bodyBytes argv envp p).length ≤ bodySpace root i vals := hlen ▸ le_ceil16 _
  have hbase : Vm.wordSub child.sp (bodySpace root i vals) = child.sp - bodySpace root i vals :=
    Vm.wordSub_of_le (by omega) hlt
  have hwords : headWords child i argv envp done (bodySpace root i vals) = i.rlimStack :: argv.offsets.length ::
      (argv.offsets.map (· + (child.sp - bodySpace root i vals)) ++ 0 ::
        (envp.offsets.map (· + (child.sp - bodySpace root i vals) + argv.len + 1) ++ 0 ::
          (done.flatMap (fun e => [e.type, if e.off then
            e.val + (child.sp - bodySpace root i vals + argv.len + envp.len + 2) else e.val]) ++ [AT_NULL, 0]))) := by
    rw [headWords, hbase]
    simp only [List.append_assoc, List.cons_append, List.nil_append]
  generalize hb : child.sp - bodySpace root i vals = b at hwords hbody
  have hargs : Lib.Holds mem b (argv.buf ++ [0]) := hbody.left.left
  have henv : Lib.Holds mem (b + argv.len + 1) (envp.buf ++ [0]) := by
    have hright := hbody.left.right
    rw [List.length_append, hargv.buf] at hright
    rw [hargv.len, Nat.add_assoc]
    exact hright
  have haux : Lib.Holds mem (b + argv.len + envp.len + 2) (if p.pos = 0 then [0] else p.buf) := by
    have hright := hbody.right
    rw [List.length_append, List.length_append, List.length_append, hargv.buf, henvp.buf] at hright
    rw [hargv.len, henvp.len]
    convert hright using 1
    rw [List.length_singleton]
    omega
  rw [hwords] at hhead
  obtain ⟨hstack, hhead⟩ := hhead.words
  obtain ⟨hargc, hhead⟩ := hhead.words
  have hcount : argv.offsets.length < 2 ^ 32 := by
    have hlength := congrArg List.length hwords
    have hmeta := le_ceil16 (4 * ((records RECSEP i.argbuf).length + (records RECSEP i.envbuf).length +
      2 * (auxvList vals).length + 6))
    have hsum : bodySpace root i vals + ceil16 (4 * ((records RECSEP i.argbuf).length + (records RECSEP i.envbuf).length +
      2 * (auxvList vals).length + 6)) ≤ 4096 := hpage
    rw [hargv.count]
    omega
  obtain ⟨hstrings, hhead⟩ := stringsAt_words (s := stringAt argv.buf) hhead fun off hoff => by
    have hin := hargv.offsets off hoff
    have hat := hargs.stringAt (hargv.buf ▸ hin)
    rw [Nat.add_comm] at hat
    exact ⟨by omega, by omega, hat⟩
  obtain ⟨henvStrings, hhead⟩ := stringsAt_words (s := stringAt envp.buf) hhead fun off hoff => by
    have hin := henvp.offsets off hoff
    have hat := henv.stringAt (henvp.buf ▸ hin)
    have hsum : b + argv.len + 1 + off = off + b + argv.len + 1 := by omega
    rw [hsum] at hat
    have hlen := hargv.len
    exact ⟨by omega, by omega, hat⟩
  have hauxv := auxvAt_words hhead (forall₂_of_mem hp.packed.entries fun e x hx he => by
    obtain ⟨name, hname, hval⟩ := List.mem_filterMap.mp hx
    obtain ⟨v, hv, rfl⟩ := Option.map_eq_some_iff.mp hval
    have hnull : name ≠ AT_NULL := by
      rintro rfl
      rw [hvals.null] at hv
      cases hv
    have hsmall : name < 64 := List.mem_range.mp hname
    have hfits : b + argv.len + envp.len + 2 + max 1 (auxLen root vals) < 2 ^ 32 := by
      rw [hargv.len, henvp.len]
      omega
    obtain ⟨hword, hat⟩ := he.at hp.packed haux hfits (hvals.lt name v hv)
    exact ⟨he.1, hnull, by omega, hword, hat⟩)
  rw [hargv.strings] at hstrings
  rw [henvp.strings] at henvStrings
  rw [hargv.count] at henvStrings hauxv
  rw [henvp.count] at hauxv
  rw [Nat.mod_eq_of_lt i.rlimStack_lt] at hstack
  rw [Nat.mod_eq_of_lt hcount, hargv.count] at hargc
  exact ⟨hstack, hargc, hstrings, henvStrings, hauxv⟩

end

section

variable {long : Overlong} {b : Built}

theorem heap_of_strsplit {text : List UInt8} (h : strsplitOffsets heap text = none) : ∃ n, heap n = none := by
  rw [strsplitOffsets] at h
  split at h
  · next hnone => exact ⟨_, hnone⟩
  · by_contra hall
    exact strsplitLoop_ne_none (fun n hn => hall ⟨n, hn⟩) h

theorem buildImage_of_vals {argv envp : Split} (hargv : strsplitOffsets env.heap i.argbuf = some argv)
    (henvp : strsplitOffsets env.heap i.envbuf = some envp) (hloop : auxvLoop defaults (vaList i.auxv) = some vals)
    (hheap : env.heap (8 * (auxvList vals).length) ≠ none) :
    buildImage env root child i =
      match packAuxv env root (auxvList vals) with
      | none => none
      | some none => some none
      | some (some (auxv, p)) => pack env child i argv envp auxv p := by
  rw [buildImage, hargv, henvp, buildAuxv, hloop]
  exact if_neg hheap

theorem buildImage_fits (hshort : auxLen root vals < 2 ^ 20) (hloop : auxvLoop defaults (vaList i.auxv) = some vals) (hrandom : RandomFits root vals) :
    (buildImage env root child i = some none ∧ ∃ n, env.heap n = none) ∨
      ∃ argv envp done p b, Parted i.argbuf argv ∧ Parted i.envbuf envp ∧ AllPacked root vals done p ∧
        buildImage env root child i = some (some b) ∧ Laid root child i vals argv envp done p b := by
  cases hargv : strsplitOffsets env.heap i.argbuf with
  | none => exact .inl ⟨by rw [buildImage, hargv], heap_of_strsplit hargv⟩
  | some argv =>
    cases henvp : strsplitOffsets env.heap i.envbuf with
    | none => exact .inl ⟨by rw [buildImage, hargv, henvp], heap_of_strsplit henvp⟩
    | some envp =>
      by_cases hheap : env.heap (8 * (auxvList vals).length) = none
      · refine .inl ⟨?_, _, hheap⟩
        rw [buildImage, hargv, henvp, buildAuxv, hloop]
        exact if_pos hheap
      · rw [buildImage_of_vals hargv henvp hloop hheap]
        obtain ⟨hnull, hheap⟩ | ⟨done, p, hpack, hp⟩ := @packAuxv_fits env root vals hshort hrandom
        · rw [hnull]
          exact .inl ⟨rfl, hheap⟩
        · have hargv' := parted i.argbuf_noNul hargv
          have henvp' := parted i.envbuf_noNul henvp
          rw [hpack]
          exact (pack_laid hargv' henvp' hp).imp_right fun ⟨b, hb, hlaid⟩ =>
            ⟨argv, envp, done, p, b, hargv', henvp', hp, hb, hlaid⟩

theorem buildImage_over (hshort : auxLen root vals < 2 ^ 20) (hloop : auxvLoop defaults (vaList i.auxv) = some vals) (hrandom : ¬ RandomFits root vals)
    (hheap : ∀ n, env.heap n ≠ none) : buildImage env root child i = none := by
  cases hargv : strsplitOffsets env.heap i.argbuf with
  | none => exact absurd (heap_of_strsplit hargv) fun ⟨n, hn⟩ => hheap n hn
  | some argv =>
    cases henvp : strsplitOffsets env.heap i.envbuf with
    | none => exact absurd (heap_of_strsplit henvp) fun ⟨n, hn⟩ => hheap n hn
    | some envp =>
      rw [buildImage_of_vals hargv henvp hloop (hheap _)]
      obtain hnone | ⟨done, p, hpack, hover⟩ := packAuxv_over hshort hrandom hheap
      · rw [hnone]
      · rw [hpack]
        dsimp only
        rw [pack]
        dsimp only
        rw [if_neg (hheap _)]
        split
        · rfl
        · exact if_pos (.inl (by omega))

theorem buildImage_long (hlong : ¬ auxLen root vals < 2 ^ 20) (hloop : auxvLoop defaults (vaList i.auxv) = some vals)
    (hheap : ∀ n, env.heap n ≠ none) :
    buildImage env root child i = none ∨ ∃ b, buildImage env root child i = some (some b) ∧ 4096 < b.image.length := by
  cases hargv : strsplitOffsets env.heap i.argbuf with
  | none => exact absurd (heap_of_strsplit hargv) fun ⟨n, hn⟩ => hheap n hn
  | some argv =>
    cases henvp : strsplitOffsets env.heap i.envbuf with
    | none => exact absurd (heap_of_strsplit henvp) fun ⟨n, hn⟩ => hheap n hn
    | some envp =>
      rw [buildImage_of_vals hargv henvp hloop (hheap _)]
      cases hpack : packAuxv env root (auxvList vals) with
      | none => exact .inl rfl
      | some packed =>
        cases packed with
        | none =>
          rw [packAuxv, if_neg (hheap 128)] at hpack
          exact absurd (heap_of_packLoop hpack) fun ⟨n, hn⟩ => hheap n hn
        | some packed =>
          obtain ⟨done, p⟩ := packed
          have hpos := packAuxv_long hlong hpack
          dsimp only
          rw [pack]
          dsimp only
          rw [if_neg (hheap _)]
          split
          · exact .inl rfl
          · next hhead =>
            split
            · exact .inl rfl
            · next hbody =>
              obtain ⟨-, hhead⟩ := not_or.mp hhead
              obtain ⟨-, hbody⟩ := not_or.mp hbody
              have hroom := le_ceil16 (argv.len + envp.len + (max 1 p.pos - 1) + 3)
              refine .inr ⟨_, rfl, ?_⟩
              rw [(layOut_spec (Nat.not_lt.mp hhead) (Nat.le_trans (Nat.le_of_eq (not_not.mp hbody)) hroom) (by omega)).1]
              omega

theorem uploadStartupStack_of_image (hb : buildImage env root child i = some (some b)) :
    uploadStartupStack env long root child i =
      match callUploadPage env long child.mem (Vm.wordSub child.sp b.image.length) b.image with
      | none => none
      | some (n, mem) => some (.done (if 0 < n then -5 else n) b.sp mem) := by
  rw [uploadStartupStack, hb] <;> rfl

theorem holds_uploadPage {mem : ChildMem} {a : ℕ} {data : List UInt8} (h : data.length ≤ 4096) :
    Lib.Holds (uploadPage mem a data) a data := by
  intro k hk
  rw [uploadPage, if_pos (by omega), Nat.add_sub_cancel_left, List.getD_eq_getElem _ _ hk]

theorem auxLen_of_page (h : stackSpace root i vals ≤ 4096) : auxLen root vals < 2 ^ 20 := by
  have hle := le_ceil16 (i.argbuf.length + i.envbuf.length + max 1 (auxLen root vals) + 2)
  rw [stackSpace] at h
  omega

theorem stackSpace_pos : 0 < stackSpace root i vals := by
  have hle := le_ceil16 (i.argbuf.length + i.envbuf.length + max 1 (auxLen root vals) + 2)
  rw [stackSpace]
  omega

theorem deliversVals_of_fits (hloop : auxvLoop defaults (vaList i.auxv) = some vals) (hvals : Plausible vals)
    (hrandom : RandomFits root vals) (hpage : stackSpace root i vals ≤ 4096) : DeliversVals root child long i vals := by
  intro env
  obtain ⟨hnull, -⟩ | ⟨argv, envp, done, p, b, hargv, henvp, hp, hb, hlaid⟩ := @buildImage_fits env root child i vals
    (auxLen_of_page hpage) hloop hrandom
  · rw [uploadStartupStack, hnull]
    exact ⟨.enomem, rfl, fun _ b hb => nomatch Option.some.inj hb⟩
  · have hge := child.ge
    have hpos : 0 < stackSpace root i vals := stackSpace_pos
    have hlength : b.image.length = 4096 := by
      rw [hlaid.length]
      omega
    have haddr : Vm.wordSub child.sp b.image.length = child.sp - 4096 := by
      rw [hlength]
      exact Vm.wordSub_of_le (by omega) child.lt
    have hsp : b.sp = child.sp - stackSpace root i vals := by
      rw [hlaid.sp]
      exact Vm.wordSub_of_le (by omega) child.lt
    obtain ⟨n, mem, hcall, hvm⟩ : ∃ n mem, callUploadPage env long child.mem (child.sp - 4096) b.image = some (n, mem) ∧
        (env.vm = 0 → n = 0 ∧ mem = uploadPage child.mem (child.sp - 4096) b.image) := by
      rw [callUploadPage, if_pos (Nat.le_of_eq hlength)]
      by_cases hvm : env.vm = 0
      · exact ⟨0, _, by rw [if_pos hvm], fun _ => ⟨rfl, rfl⟩⟩
      · exact ⟨env.vm, child.mem, by rw [if_neg hvm], fun h => absurd h hvm⟩
    rw [uploadStartupStack_of_image hb, haddr, hcall]
    refine ⟨_, rfl, fun hzero b' hb' => ?_⟩
    obtain ⟨rfl, rfl⟩ := hvm hzero
    obtain rfl := Option.some.inj (Option.some.inj (hb.symm.trans hb'))
    have hholds : Lib.Holds (uploadPage child.mem (child.sp - 4096) b.image) (child.sp - 4096) b.image :=
      holds_uploadPage (Nat.le_of_eq hlength)
    refine ⟨uploadPage child.mem (child.sp - 4096) b.image, rfl, by omega,
      by rw [hlength]; exact hholds, ?_⟩
    obtain ⟨before, after, himage, hbefore⟩ := hlaid.head
    have hhead := holds_mid hholds himage
    obtain ⟨before', after', himage', hbefore'⟩ := hlaid.body
    have hbody := holds_mid hholds himage'
    have hroom : bodySpace root i vals ≤ stackSpace root i vals := Nat.le_add_right _ _
    have hheadAt : child.sp - 4096 + before.length = child.sp - stackSpace root i vals := by omega
    have hbodyAt : child.sp - 4096 + before'.length = child.sp - bodySpace root i vals := by omega
    rw [hheadAt] at hhead
    rw [hbodyAt] at hbody
    rw [hsp]
    exact reads_of_holds hargv henvp hp hvals hpage hhead hbody

def plainEnv : Env := ⟨fun _ => some fun _ => 0, fun _ => 0, 0⟩

theorem not_delivered_over (hb : buildImage plainEnv root child i = some (some b)) (hlong : 4096 < b.image.length)
    {n : ℤ} {sp : ℕ} {mem : ChildMem} (hrun : uploadStartupStack plainEnv long root child i = some (.done n sp mem))
    (hle : b.image.length ≤ child.sp) : ¬ Lib.Holds mem (child.sp - b.image.length) b.image := by
  have haddr : Vm.wordSub child.sp b.image.length = child.sp - b.image.length := Vm.wordSub_of_le hle child.lt
  rw [uploadStartupStack_of_image hb, haddr, callUploadPage, if_neg (Nat.not_le.mpr hlong)] at hrun
  intro hholds
  -- the byte at the start of the second page
  have hbyte := hholds 4096 hlong
  have hfree := child.free (child.sp - b.image.length + 4096) (by omega)
  have hmem : mem (child.sp - b.image.length + 4096) = none := by
    cases hgot : long b.image with
    | mk n' got =>
      rw [hgot] at hrun
      cases got with
      | none =>
        cases hrun
        exact hfree
      | some got =>
        dsimp only at hrun
        by_cases hover : 4096 < got.length
        · rw [if_pos hover] at hrun
          cases hrun
        · rw [if_neg hover] at hrun
          cases hrun
          rw [uploadPage, if_neg (by omega)]
          exact hfree
  rw [hmem] at hbyte
  cases hbyte

theorem fits_of_deliversVals {wanted : ℕ → Option ℕ} (hloop : auxvLoop defaults (vaList i.auxv) = some vals)
    (h : DeliversVals root child long i wanted) : RandomFits root vals ∧ stackSpace root i vals ≤ 4096 := by
  have hheap : ∀ n, plainEnv.heap n ≠ none := fun n => nofun
  obtain ⟨r, hrun, hall⟩ := h plainEnv
  have hshort : auxLen root vals < 2 ^ 20 := by
    by_contra hlong
    obtain hnone | ⟨b, hb, hover⟩ := @buildImage_long plainEnv root child i vals hlong hloop hheap
    · rw [uploadStartupStack, hnone] at hrun
      cases hrun
    · obtain ⟨mem, rfl, hle, hholds, -⟩ := hall rfl b hb
      exact not_delivered_over hb hover hrun hle hholds
  have hrandom : RandomFits root vals := by
    by_contra hno
    rw [uploadStartupStack, buildImage_over hshort hloop hno hheap] at hrun
    cases hrun
  refine ⟨hrandom, ?_⟩
  obtain ⟨-, n, hnone⟩ | ⟨argv, envp, done, p, b, -, -, -, hb, hlaid⟩ := @buildImage_fits plainEnv root child i vals hshort
    hloop hrandom
  · exact absurd hnone (hheap n)
  · by_contra hover
    obtain ⟨mem, rfl, hle, hholds, -⟩ := hall rfl b hb
    refine not_delivered_over hb ?_ hrun hle hholds
    rw [hlaid.length]
    omega

theorem not_delivers_of_none (hloop : auxvLoop defaults (vaList i.auxv) = none) : ¬ Delivers root child long i := by
  intro h
  obtain ⟨r, hrun, -⟩ := h plainEnv
  have hheap : ∀ n, plainEnv.heap n ≠ none := fun n => nofun
  have hnone : buildImage plainEnv root child i = none := by
    rw [buildImage]
    cases hargv : strsplitOffsets plainEnv.heap i.argbuf with
    | none => exact absurd (heap_of_strsplit hargv) fun ⟨n, hn⟩ => hheap n hn
    | some argv =>
      cases henvp : strsplitOffsets plainEnv.heap i.envbuf with
      | none => exact absurd (heap_of_strsplit henvp) fun ⟨n, hn⟩ => hheap n hn
      | some envp => rw [buildAuxv, hloop, Option.map_none]
  rw [uploadStartupStack, hnone] at hrun
  cases hrun

theorem delivers_iff (hskip : Skippable i.auxv) : Delivers root child long i ↔ Fits root i := by
  obtain ⟨hread, hfail⟩ := @auxvLoop_pairs defaults i.auxv i.auxv_ne hskip
  constructor
  · intro h
    have hnames : ∀ e ∈ i.auxv, e.1 < nAttrs := by
      by_contra hno
      exact not_delivers_of_none (hfail hno) h
    obtain ⟨hrandom, hpage⟩ := fits_of_deliversVals (hread hnames) h
    exact ⟨hnames, hrandom, hpage⟩
  · exact fun h => deliversVals_of_fits (hread h.names) (plausible_given i) h.random h.page

-- Entries to ignore

theorem auxvAt_unique {mem : ChildMem} {a : ℕ} {l l' : List (ℕ × AuxVal)} (h : AuxvAt mem a l) (h' : AuxvAt mem a l') :
    ∀ e ∈ l, ∃ e' ∈ l', e.1 = e'.1 ∧ ∀ x y, e.2 = .word x → e'.2 = .word y → x = y := by
  induction l generalizing a l' with
  | nil => exact nofun
  | cons e l ih =>
    obtain ⟨⟨hne, hname, w, hword, hat⟩, hrest⟩ := h
    cases l' with
    | nil => exact absurd (Option.some.inj (hname.symm.trans h')) hne
    | cons e' l' =>
      obtain ⟨⟨-, hname', w', hword', hat'⟩, hrest'⟩ := h'
      refine List.forall_mem_cons.mpr ⟨⟨e', List.mem_cons_self, ?_, fun x y hx hy => ?_⟩, fun f hf => ?_⟩
      · exact Option.some.inj (hname.symm.trans hname')
      · rw [hx] at hat
        rw [hy] at hat'
        have hsame := Option.some.inj (hword.symm.trans hword')
        exact hat.symm.trans (hsame.trans hat')
      · obtain ⟨f', hmem, hf'⟩ := ih hrest hrest' f hf
        exact ⟨f', List.mem_cons_of_mem _ hmem, hf'⟩

theorem vals_of_delivers {name v : ℕ} {wanted : ℕ → Option ℕ} (hloop : auxvLoop defaults (vaList i.auxv) = some vals)
    (hvals : Plausible vals) (h : DeliversVals root child long i wanted) (hlt : name < nAttrs) (hplain : strAttr name = false)
    (hv : wanted name = some v) : vals name = some v := by
  obtain ⟨hrandom, hpage⟩ := fits_of_deliversVals hloop h
  have hread : DeliversVals root child long i vals := deliversVals_of_fits hloop hvals hrandom hpage
  obtain ⟨-, n, hnone⟩ | ⟨argv, envp, done, p, b, -, -, -, hb, -⟩ := @buildImage_fits plainEnv root child i vals
    (auxLen_of_page hpage) hloop hrandom
  · cases hnone
  obtain ⟨r, hrun, hall⟩ := h plainEnv
  obtain ⟨r', hrun', hall'⟩ := hread plainEnv
  obtain rfl := Option.some.inj (hrun.symm.trans hrun')
  obtain ⟨mem, hr, -, -, hreads⟩ := hall rfl b hb
  obtain ⟨mem', hr', -, -, hreads'⟩ := hall' rfl b hb
  obtain ⟨-, -, rfl⟩ := Result.done.inj (hr.symm.trans hr')
  have hmem : (name, auxVal root name v) ∈ expected root wanted :=
    List.mem_map.mpr ⟨(name, v), List.mem_filterMap.mpr ⟨name, List.mem_range.mpr hlt, by rw [hv]; rfl⟩, rfl⟩
  obtain ⟨e', he', hname, hword⟩ := auxvAt_unique hreads.auxv hreads'.auxv _ hmem
  obtain ⟨x, hx, rfl⟩ := List.mem_map.mp he'
  obtain ⟨name', -, hval⟩ := List.mem_filterMap.mp hx
  obtain ⟨v', hv', rfl⟩ := Option.map_eq_some_iff.mp hval
  obtain rfl : name = name' := hname
  have hsame : v = v' := hword v v' (if_pos hplain) (if_pos hplain)
  rw [hv', hsame]

/-- `AT_CLKTCK`, a number that is passed behind an entry to ignore. -/
def AT_CLKTCK : ℕ := 17

def ignoreInput (v : ℕ) (hv : v < 2 ^ 32) : Input where
  argbuf := []
  envbuf := []
  rlimStack := 0
  auxv := [(AT_IGNORE, v), (AT_CLKTCK, 1)]
  argbuf_noNul := nofun
  envbuf_noNul := nofun
  rlimStack_lt := by decide
  auxv_ne := List.forall_mem_cons.mpr ⟨(by decide : AT_IGNORE ≠ AT_NULL), by decide⟩
  auxv_lt := List.forall_mem_cons.mpr ⟨hv, by decide⟩

theorem ignoreInput_fits {v : ℕ} (hv : v < 2 ^ 32) : Fits root (ignoreInput v hv) where
  names := List.forall_mem_cons.mpr ⟨(by decide : AT_IGNORE < nAttrs), by decide⟩
  random h := absurd rfl h
  page := by
    have haux : auxLen root (given (ignoreInput v hv).auxv) = 0 := rfl
    have hcount : (auxvList (given (ignoreInput v hv).auxv)).length = 3 := rfl
    have hargs : records RECSEP (ignoreInput v hv).argbuf = [] := records_nil
    have henv : records RECSEP (ignoreInput v hv).envbuf = [] := records_nil
    rw [stackSpace, haux, hcount, hargs, henv]
    show ceil16 3 + ceil16 48 ≤ 4096
    decide

theorem ignoreInput_not_delivered {v : ℕ} (hv : v < 2 ^ 32) (hne : v ≠ AT_IGNORE) :
    ¬ Delivers root child long (ignoreInput v hv) := by
  have hargs : vaList (ignoreInput v hv).auxv = [AT_IGNORE, v, AT_CLKTCK, 1, AT_NULL, 0] := rfl
  have hwanted : given (ignoreInput v hv).auxv AT_CLKTCK = some 1 := rfl
  by_cases hlt : v < nAttrs
  · intro h
    by_cases hzero : v = AT_NULL
    · have hloop : auxvLoop defaults (vaList (ignoreInput v hv).auxv) = some defaults := by
        rw [hargs, auxvLoop_ignore, hzero]
        rfl
      cases vals_of_delivers hloop plausible_defaults h (by decide) rfl hwanted
    · have hloop : auxvLoop defaults (vaList (ignoreInput v hv).auxv) = some (Function.update defaults v (some AT_CLKTCK)) := by
        rw [hargs, auxvLoop_ignore, auxvLoop_value hzero hlt hne]
        exact auxvLoop_ignore
      have hfound := vals_of_delivers hloop (plausible_defaults.update hzero (by decide)) h (by decide) rfl hwanted
      by_cases heq : AT_CLKTCK = v
      · rw [heq, Function.update_self, ← heq] at hfound
        cases hfound
      · rw [Function.update_of_ne heq] at hfound
        cases hfound
  · refine not_delivers_of_none ?_
    have hzero : v ≠ AT_NULL := by
      rintro rfl
      exact hlt (by decide)
    rw [hargs, auxvLoop_ignore, auxvLoop, if_neg hzero, if_pos (Nat.not_lt.mp hlt)]

/-- Where entries to ignore have the value that is ignored with them, the program finds what is passed just
    where it fits; with any other value there is an entry to ignore that hides what fits. -/
theorem startup_delivers_iff (root : Root) (child : Child) (long : Overlong) :
    (∀ i : Input, Skippable i.auxv → (Delivers root child long i ↔ Fits root i)) ∧
      ∀ v < 2 ^ 32, v ≠ AT_IGNORE → ∃ i : Input, (AT_IGNORE, v) ∈ i.auxv ∧ Fits root i ∧ ¬ Delivers root child long i :=
  ⟨fun _ => delivers_iff, fun v hv hne =>
    ⟨ignoreInput v hv, List.mem_cons_self, ignoreInput_fits hv, ignoreInput_not_delivered hv hne⟩⟩

def longInput : Input where
  argbuf := List.replicate 4090 97
  envbuf := []
  rlimStack := 0
  auxv := []
  argbuf_noNul := fun h => absurd (List.eq_of_mem_replicate h) (by decide)
  envbuf_noNul := nofun
  rlimStack_lt := by decide
  auxv_ne := nofun
  auxv_lt := nofun

def plainRoot : Root := ⟨fun _ => ⟨0, [], nofun⟩, fun _ => List.replicate 16 0, fun _ => List.length_replicate⟩

def plainChild : Child := ⟨fun _ => none, 0x20000, by decide, by decide, by decide, fun _ _ => rfl⟩

theorem startup_two_pages : ¬ ∃ long, Delivers plainRoot plainChild long longInput := by
  rintro ⟨long, h⟩
  have hpage := ((delivers_iff fun e he => absurd he List.not_mem_nil).mp h).page
  have hbody := le_ceil16 (longInput.argbuf.length + longInput.envbuf.length + max 1 (auxLen plainRoot (given longInput.auxv)) + 2)
  have hhead := le_ceil16 (4 * ((records RECSEP longInput.argbuf).length + (records RECSEP longInput.envbuf).length +
    2 * (auxvList (given longInput.auxv)).length + 6))
  have hlength : longInput.argbuf.length = 4090 := List.length_replicate
  rw [stackSpace] at hpage
  omega

end

end Sneks.Exec.Startup

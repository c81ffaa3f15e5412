import Mathlib.Data.List.ReduceOption
import Mathlib.Data.List.Nodup

/-!
# Hash tables that are walked

A hash table has places, each of which is empty or has an item with its hash. A walk of the items of a
hash goes from place to place, and stops at those whose hash the table does not tell from that. While
it lasts the item where it is may be deleted. How the table orders its items is left open.
-/

namespace Sneks.Lib

abbrev Places (H α : Type*) := List (Option (H × α))

structure Htable (H α : Type*) where
  /-- Two hashes that the table does not tell apart. -/
  same : H → H → Bool
  put : Places H α → H × α → Places H α
  same_self : ∀ h, same h h = true
  put_perm : ∀ t x, (put t x).reduceOption.Perm (x :: t.reduceOption)

variable {H α σ ε : Type*} {t pre post : Places H α} {g h : H} {x y : α} {i n : ℕ}

def Places.items (t : Places H α) : List α := t.reduceOption.map Prod.snd

@[simp] theorem Places.items_none (t : Places H α) : Places.items (none :: t) = Places.items t := rfl

@[simp] theorem Places.items_some (t : Places H α) : Places.items (some (h, x) :: t) = x :: Places.items t := rfl

theorem Places.items_append (t u : Places H α) : Places.items (t ++ u) = Places.items t ++ Places.items u := by
  rw [Places.items, List.reduceOption_append, List.map_append]
  rfl

namespace Htable

variable (ht : Htable H α)

/-- The next item of the hash, from the place `i` on. -/
def nextFrom (h : H) : ℕ → Places H α → Option (ℕ × α)
  | _, [] => none
  | i, none :: t => nextFrom h (i + 1) t
  | i, some (g, x) :: t => if ht.same g h then some (i, x) else nextFrom h (i + 1) t

def next (t : Places H α) (h : H) (i : ℕ) : Option (ℕ × α) := ht.nextFrom h i (t.drop i)

def del [DecidableEq α] (h : H) (x : α) : Places H α → Places H α
  | [] => []
  | none :: t => none :: del h x t
  | some (g, y) :: t => if ht.same g h ∧ y = x then none :: t else some (g, y) :: del h x t

def candidates (h : H) (t : Places H α) : List α := (t.reduceOption.filter (ht.same ·.1 h)).map Prod.snd

/-- The loop over the items of a hash, from the place `i` on; `stuck` is where `n` rounds do not suffice. -/
def walk (places : σ → Places H α) (stuck : ε) (h : H) (body : α → σ → Except ε σ) : ℕ → ℕ → σ → Except ε σ
  | 0, _, _ => .error stuck
  | n + 1, i, s =>
    match ht.next (places s) h i with
    | none => .ok s
    | some (i, x) => (body x s).bind (walk places stuck h body n (i + 1))

theorem candidates_some : ht.candidates h (some (g, x) :: t) =
    if ht.same g h then x :: ht.candidates h t else ht.candidates h t := by
  rw [candidates, List.reduceOption_cons_of_some, List.filter_cons]
  split <;> rfl

theorem mem_candidates : x ∈ ht.candidates h t ↔ ∃ g, (g, x) ∈ t.reduceOption ∧ ht.same g h = true := by
  rw [candidates, List.mem_map]
  constructor
  · rintro ⟨⟨g, y⟩, hmem, rfl⟩
    exact ⟨g, List.mem_filter.mp hmem⟩
  · rintro ⟨g, hmem⟩
    exact ⟨(g, x), List.mem_filter.mpr hmem, rfl⟩

theorem nodup_candidates (h : (Places.items t).Nodup) (g : H) : (ht.candidates g t).Nodup :=
  h.sublist (List.filter_sublist.map _)

theorem items_put (t : Places H α) (h : H) (x : α) : (Places.items (ht.put t (h, x))).Perm (x :: Places.items t) :=
  (ht.put_perm t (h, x)).map Prod.snd

variable [DecidableEq α]

theorem del_append (hx : x ∉ Places.items pre) (hsame : ht.same g h = true) :
    ht.del h x (pre ++ some (g, x) :: post) = pre ++ none :: post := by
  induction pre with
  | nil => rw [List.nil_append, del, if_pos ⟨hsame, rfl⟩, List.nil_append]
  | cons e pre ih =>
    cases e with
    | none =>
      rw [List.cons_append, del, ih hx]
      rfl
    | some e =>
      obtain ⟨f, y⟩ := e
      rw [Places.items_some, List.mem_cons, not_or] at hx
      rw [List.cons_append, del, if_neg fun h => hx.1 h.2.symm, ih hx.2]
      rfl

theorem reduceOption_del (hsame : ∀ g, (g, x) ∈ t.reduceOption → ht.same g h = true) (hnodup : (Places.items t).Nodup) :
    (ht.del h x t).reduceOption = t.reduceOption.filter (·.2 ≠ x) := by
  induction t with
  | nil => rfl
  | cons e t ih =>
    match e with
    | none => exact ih hsame hnodup
    | some (g, y) =>
      obtain ⟨hy, hnodup⟩ := List.nodup_cons.mp hnodup
      rw [List.reduceOption_cons_of_some] at hsame ⊢
      rw [del, List.filter_cons]
      by_cases hyx : y = x
      · subst hyx
        have hrest : ∀ e ∈ t.reduceOption, decide (e.2 ≠ y) = true := by
          intro e he
          refine decide_eq_true fun hey => hy ?_
          exact List.mem_map.mpr ⟨e, he, hey⟩
        rw [if_pos ⟨hsame g List.mem_cons_self, rfl⟩, List.reduceOption_cons_of_none, if_neg (by simp),
          List.filter_eq_self.mpr hrest]
      · have ih := ih (fun g hg => hsame g (List.mem_cons_of_mem _ hg)) hnodup
        rw [if_neg fun h => hyx h.2, List.reduceOption_cons_of_some, ih, if_pos (decide_eq_true hyx)]

theorem items_del (hsame : ∀ g, (g, x) ∈ t.reduceOption → ht.same g h = true) (hnodup : (Places.items t).Nodup) :
    Places.items (ht.del h x t) = (Places.items t).filter (· ≠ x) := by
  rw [Places.items, ht.reduceOption_del hsame hnodup, Places.items, List.filter_map]
  rfl

/-- **A walk is over the items that there are in the beginning**, if its body changes nothing in the table,
or deletes the item where it is. -/
theorem walk_eq (pre : Places H α) {places : σ → Places H α} {stuck : ε} {body : α → σ → Except ε σ} {s : σ}
    (hbody : ∀ x s s', body x s = .ok s' → places s' = places s ∨ places s' = ht.del h x (places s))
    (hs : places s = pre ++ post) (hnodup : (Places.items (pre ++ post)).Nodup) (hn : post.length < n) :
    ht.walk places stuck h body n pre.length s = (ht.candidates h post).foldlM (fun s x => body x s) s := by
  induction post generalizing pre s n with
  | nil =>
    obtain ⟨n, rfl⟩ := Nat.exists_eq_add_of_lt hn
    rw [walk, next, hs, List.drop_left]
    rfl
  | cons e post ih =>
    -- at a place without a candidate the walk goes on as from the next place
    have hskip : ht.nextFrom h pre.length (e :: post) = ht.nextFrom h (pre.length + 1) post →
        ht.walk places stuck h body n pre.length s = ht.walk places stuck h body n (pre ++ [e]).length s := by
      intro hnext
      obtain ⟨n, rfl⟩ := Nat.exists_eq_add_of_lt hn
      have hdrop : (pre ++ e :: post).drop (pre.length + 1) = post := by
        rw [← List.drop_drop, List.drop_left, List.drop_one, List.tail_cons]
      rw [walk, walk, next, next, hs, List.drop_left, hnext, List.length_append, List.length_singleton, hdrop]
    have hsplit : pre ++ e :: post = pre ++ [e] ++ post := by rw [List.append_assoc, List.singleton_append]
    have hrest := ih (pre ++ [e]) (s := s) (n := n) (hsplit ▸ hs) (hsplit ▸ hnodup) (Nat.lt_of_succ_lt hn)
    match e with
    | none => exact (hskip rfl).trans hrest
    | some (g, x) =>
      rw [candidates_some]
      by_cases hsame : ht.same g h = true
      · obtain ⟨n, rfl⟩ := Nat.exists_eq_add_of_lt hn
        have hnext : ht.next (places s) h pre.length = some (pre.length, x) := by
          rw [next, hs, List.drop_left, nextFrom, if_pos hsame]
        rw [if_pos hsame, List.foldlM_cons, walk, hnext]
        show (body x s).bind _ = (body x s).bind _
        cases hrun : body x s with
        | error e => rfl
        | ok s' =>
          rw [Places.items_append, Places.items_some] at hnodup
          have hx : x ∉ Places.items pre := fun hmem => (List.disjoint_of_nodup_append hnodup) hmem List.mem_cons_self
          -- whether the item is deleted or not, the places after it are as they were
          obtain ⟨e, hs', hnodup⟩ : ∃ e, places s' = pre ++ [e] ++ post ∧ (Places.items (pre ++ [e] ++ post)).Nodup := by
            obtain hkeep | hdel := hbody x s s' hrun
            · refine ⟨some (g, x), by rw [hkeep, hs, hsplit], ?_⟩
              rwa [← hsplit, Places.items_append, Places.items_some]
            · refine ⟨none, by rw [hdel, hs, ht.del_append hx hsame, List.append_assoc, List.singleton_append], ?_⟩
              rw [List.append_assoc, List.singleton_append, Places.items_append, Places.items_none]
              exact hnodup.sublist ((List.sublist_cons_self x _).append_left _)
          have hrest := ih (pre ++ [e]) (n := post.length + 1 + n) hs' hnodup (by omega)
          rwa [List.length_append, List.length_singleton] at hrest
      · rw [if_neg hsame]
        exact (hskip (if_neg hsame)).trans hrest

end Htable

end Sneks.Lib

import Sneks.Stdlib.Strscpy
import Mathlib.Data.List.Induction
import Mathlib.Data.List.ReduceOption

/-!
# Paths passed on to another filesystem

Where a path goes on in another filesystem, `propagate_resolve` of `sys/fs.squashfs/squashfs.c`
sends that the text to go on with, what is left of the path, and the remainders that symlinks left
on the stack, as a gather transfer of string items. Where there are more than 15 parts the first
ones are joined in a buffer.

The stack is a list from its top. The send itself is left out. A failed assertion and a write past
the end of the buffer are `none`.
-/

namespace Sneks.Squashfs
open Stdlib

def slash : UInt8 := 47

def pathMax : ℕ := 4000

def maxParts : ℕ := 15

/-- What `propagate_resolve` returns where it sends nothing. -/
inductive TooLong
  | ENAMETOOLONG
  deriving DecidableEq

def skipSlashes (s : CText) : CText where
  addr := s.addr + (s.text.takeWhile (· == slash)).length
  text := s.text.dropWhile (· == slash)
  nonul h := s.nonul ((List.dropWhile_sublist _).subset h)

/-- The `switch` on the number of a part: its text, if it has one, and what stays on the stack. -/
def pick (link : CText) (rem : Option CText) (stack : List CText) : ℕ → Option (Option CText × List CText)
  | 0 => some (some link, stack)
  | 1 => some (rem, stack)
  | _ =>
    match stack with
    | [] => none
    | src :: rest => some (some src, rest)

def addSlash (buf : List UInt8) : List UInt8 :=
  if buf ≠ [] ∧ buf.getLast? ≠ some slash then buf ++ [slash] else buf

def bufAppend (buf : List UInt8) (src : CText) : Option (Except TooLong (List UInt8)) :=
  if addSlash buf ≠ buf ∧ buf.length = pathMax then some (.error .ENAMETOOLONG)
  else
    let buf := addSlash buf
    let (copied, reach) := strscpy src (pathMax - buf.length)
    if pathMax - buf.length < reach then none
    else
      match copied with
      | none => some (.error .ENAMETOOLONG)
      | some text => if buf.length + text.length < pathMax then some (.ok (buf ++ text)) else none

structure Fill where
  partsLeft : ℕ
  part : ℕ
  stack : List CText
  buf : List UInt8

def fillBuf (link : CText) (rem : Option CText) : ℕ → ℕ → List CText → List UInt8 → Option (Except TooLong Fill)
  | 0, part, stack, buf => some (.ok ⟨0, part, stack, buf⟩)
  | n + 1, part, stack, buf =>
    if n + 1 ≤ maxParts - 1 then some (.ok ⟨n + 1, part, stack, buf⟩)
    else do
      let (src, stack) ← pick link rem stack part
      match src with
      | none => fillBuf link rem n (part + 1) stack buf
      | some src =>
        match ← bufAppend buf src with
        | .error e => some (.error e)
        | .ok buf => fillBuf link rem n (part + 1) stack buf

/-- The loop that adds string items. There is room for `2 * maxParts`; the assertion before
it lets one more pass. -/
def gather (link : CText) (rem : Option CText) : ℕ → ℕ → List CText → List (List UInt8) → Option (List (List UInt8))
  | 0, _, _, items => some items
  | n + 1, part, stack, items => do
    let (src, stack) ← pick link rem stack part
    match src with
    | none => gather link rem n (part + 1) stack items
    | some src =>
      if 2 * maxParts < items.length + 2 then none
      else gather link rem n (part + 1) stack (items ++ [[slash], src.text])

/-- `propagate_resolve`: the string items that are sent. -/
def propagateResolve (link : CText) (rem : Option CText) (stack : List CText) :
    Option (Except TooLong (List (List UInt8))) := do
  let link := skipSlashes link
  let partsLeft := 1 + (if rem.isSome then 1 else 0) + stack.length
  if partsLeft ≤ maxParts then
    let items ← gather link rem (partsLeft - 1) 1 stack [link.text]
    some (.ok items)
  else
    match ← fillBuf link rem partsLeft 0 stack [] with
    | .error e => some (.error e)
    | .ok f =>
      let items ← gather link rem f.partsLeft f.part f.stack [f.buf]
      some (.ok items)

def slashed : List CText → List UInt8
  | [] => []
  | p :: ps => p.text ++ ps.flatMap fun q => slash :: q.text

def squeezeFrom : Bool → List UInt8 → List UInt8
  | _, [] => []
  | after, c :: cs => if after ∧ c = slash then squeezeFrom true cs else c :: squeezeFrom (c == slash) cs

def squeeze (s : List UInt8) : List UInt8 := squeezeFrom true s

def parts (link : CText) (rem : Option CText) (stack : List CText) : List CText :=
  skipSlashes link :: (rem.toList ++ stack)

/-- All parts are sent in order with slashes between them, or it fails with `ENAMETOOLONG`, and
nothing is written out of bounds. -/
def Whole (link : CText) (rem : Option CText) (stack : List CText) : Prop :=
  propagateResolve link rem stack = some (.error .ENAMETOOLONG) ∨
    ∃ items, propagateResolve link rem stack = some (.ok items) ∧
      squeeze items.flatten = squeeze (slashed (parts link rem stack))

-- When it is so

def slots (link : CText) (rem : Option CText) (stack : List CText) : List (Option CText) :=
  some (skipSlashes link) :: rem :: stack.map some

def count (rem : Option CText) (stack : List CText) : ℕ := 1 + (if rem.isSome then 1 else 0) + stack.length

def buffered (link : CText) (rem : Option CText) (stack : List CText) : List CText :=
  if count rem stack ≤ maxParts then []
  else ((slots link rem stack).take (count rem stack - (maxParts - 1))).reduceOption

def joined (ps : List CText) : List UInt8 := ps.foldl (fun buf p => addSlash buf ++ p.text) []

def FitsBuffer (ps : List CText) : Prop := (joined ps).length < pathMax

instance (ps : List CText) : Decidable (FitsBuffer ps) := inferInstanceAs (Decidable (_ < _))

/-- Of the first part that does not fit whole words fill what is left of the buffer, after the
part's first word boundary. -/
def CutsWell (ps : List CText) : Prop :=
  ∀ pre p post, ps = pre ++ p :: post → FitsBuffer pre → ¬ FitsBuffer (pre ++ [p]) →
    (pathMax - (addSlash (joined pre)).length - p.head) % 4 = 0

/-- The bottom of the stack adds nothing to what is above: there are only slashes in it, and the
text before it is empty or ends in a slash. -/
def Vacuous (link : CText) (stack : List CText) : Prop :=
  ∃ above bottom, stack = above ++ [bottom] ∧ (∀ c ∈ bottom.text, c = slash) ∧
    (slashed (skipSlashes link :: above) = [] ∨ (slashed (skipSlashes link :: above)).getLast? = some slash)

-- Runs of slashes

variable {link p : CText} {rem : Option CText} {stack ps : List CText} {n part : ℕ} {after : Bool} {s u : List UInt8}

def endsIn (after : Bool) (s : List UInt8) : Bool := (s.getLast?.map (· == slash)).getD after

theorem endsIn_cons (c : UInt8) : endsIn after (c :: s) = endsIn (c == slash) s := by
  cases s with
  | nil => rfl
  | cons d s => rw [endsIn, endsIn, List.getLast?_cons_cons]; cases h : (d :: s).getLast? with
    | none => simp at h
    | some e => rfl

theorem endsIn_append : endsIn after (s ++ u) = endsIn (endsIn after s) u := by
  induction s generalizing after with
  | nil => rfl
  | cons c s ih => rw [List.cons_append, endsIn_cons, endsIn_cons, ih]

theorem squeezeFrom_append : squeezeFrom after (s ++ u) = squeezeFrom after s ++ squeezeFrom (endsIn after s) u := by
  induction s generalizing after with
  | nil => rfl
  | cons c s ih =>
    rw [List.cons_append, squeezeFrom, squeezeFrom, endsIn_cons]
    split
    · next h =>
      rw [ih, h.2, beq_self_eq_true]
    · rw [ih, List.cons_append]

theorem squeezeFrom_eq_nil : squeezeFrom after s = [] ↔ s = [] ∨ after = true ∧ ∀ c ∈ s, c = slash := by
  induction s generalizing after with
  | nil => exact ⟨fun _ => .inl rfl, fun _ => rfl⟩
  | cons c s ih =>
    rw [squeezeFrom]
    split
    · next h =>
      rw [ih, List.forall_mem_cons]
      simp only [h.1, h.2, true_and, reduceCtorEq, false_or]
      exact or_iff_right_of_imp fun hs => hs ▸ nofun
    · next h =>
      rw [List.forall_mem_cons]
      exact ⟨nofun, fun hs => absurd ⟨(hs.resolve_left nofun).1, (hs.resolve_left nofun).2.1⟩ h⟩

theorem endsIn_eq_true : endsIn true s = true ↔ s = [] ∨ s.getLast? = some slash := by
  rw [endsIn]
  cases h : s.getLast? with
  | none => simpa using List.getLast?_eq_none_iff.mp h
  | some c =>
    have hne : s ≠ [] := fun hs => by rw [hs] at h; cases h
    simp [hne]

theorem endsIn_addSlash : endsIn true (addSlash s) = true := by
  rw [addSlash, endsIn_eq_true]
  split
  · exact .inr List.getLast?_concat
  · next h => exact or_iff_not_imp_left.mpr fun hs => not_not.mp fun hl => h ⟨hs, hl⟩

theorem squeeze_addSlash : squeeze (addSlash s) = squeeze (s ++ [slash]) := by
  rw [addSlash]
  split
  · rfl
  · next h =>
    have hends : endsIn true s = true :=
      endsIn_eq_true.mpr (or_iff_not_imp_left.mpr fun hs => not_not.mp fun hl => h ⟨hs, hl⟩)
    rw [squeeze, squeeze, squeezeFrom_append, hends]
    exact (List.append_nil _).symm

theorem slashed_append (hps : ps ≠ []) (qs : List CText) :
    slashed (ps ++ qs) = slashed ps ++ qs.flatMap fun q => slash :: q.text := by
  obtain ⟨p, ps, rfl⟩ := List.exists_cons_of_ne_nil hps
  rw [List.cons_append, slashed, slashed, List.flatMap_append, List.append_assoc]

theorem joined_append : joined (ps ++ [p]) = addSlash (joined ps) ++ p.text := List.foldl_concat ..

theorem squeeze_append_congr {v : List UInt8} (h : squeeze s = squeeze u) (hends : endsIn true s = endsIn true u) :
    squeeze (s ++ v) = squeeze (u ++ v) ∧ endsIn true (s ++ v) = endsIn true (u ++ v) := by
  rw [squeeze, squeeze] at h
  rw [squeeze, squeeze, squeezeFrom_append, squeezeFrom_append, endsIn_append, endsIn_append, h, hends]
  exact ⟨rfl, rfl⟩

theorem squeeze_joined (ps : List CText) :
    squeeze (joined ps) = squeeze (slashed ps) ∧ endsIn true (joined ps) = endsIn true (slashed ps) := by
  induction ps using List.reverseRecOn with
  | nil => exact ⟨rfl, rfl⟩
  | append_singleton ps p ih =>
    rw [joined_append]
    by_cases hps : ps = []
    · have hone : addSlash (joined ps) ++ p.text = slashed (ps ++ [p]) := by
        rw [hps]
        exact (List.append_nil _).symm
      rw [hone]
      exact ⟨rfl, rfl⟩
    · have hsplit : slashed (ps ++ [p]) = slashed ps ++ [slash] ++ p.text := by
        rw [slashed_append hps, List.flatMap_singleton, List.append_assoc]
        rfl
      have hmark : endsIn true (slashed ps ++ [slash]) = true := endsIn_eq_true.mpr (.inr List.getLast?_concat)
      have hbefore : squeeze (addSlash (joined ps)) = squeeze (slashed ps ++ [slash]) := by
        rw [squeeze_addSlash]
        exact (squeeze_append_congr ih.1 ih.2).1
      rw [hsplit]
      exact squeeze_append_congr hbefore (endsIn_addSlash.trans hmark.symm)

def remaining (link : CText) (rem : Option CText) (stack : List CText) : ℕ → List (Option CText)
  | 0 => some link :: rem :: stack.map some
  | 1 => rem :: stack.map some
  | _ => stack.map some

theorem pick_spec {o : Option CText} {rest : List (Option CText)} (h : remaining link rem stack part = o :: rest) :
    ∃ stack', pick link rem stack part = some (o, stack') ∧ remaining link rem stack' (part + 1) = rest := by
  match part with
  | 0 =>
    obtain ⟨rfl, rfl⟩ := List.cons_eq_cons.mp h
    exact ⟨stack, rfl, rfl⟩
  | 1 =>
    obtain ⟨rfl, rfl⟩ := List.cons_eq_cons.mp h
    exact ⟨stack, rfl, rfl⟩
  | part + 2 =>
    obtain ⟨src, stack', rfl, rfl, rfl⟩ := List.map_eq_cons_iff.mp h
    exact ⟨stack', rfl, rfl⟩

theorem gather_spec {items : List (List UInt8)} (hn : n ≤ (remaining link rem stack part).length)
    (hroom : items.length + 2 * n ≤ 2 * maxParts) : gather link rem n part stack items =
      some (items ++ ((remaining link rem stack part).take n).reduceOption.flatMap fun q => [[slash], q.text]) := by
  induction n generalizing part stack items with
  | zero => rw [gather, List.take_zero, List.reduceOption_nil, List.flatMap_nil, List.append_nil]
  | succ n ih =>
    obtain ⟨o, rest, hrest⟩ := List.exists_cons_of_length_pos (Nat.lt_of_lt_of_le (Nat.succ_pos n) hn)
    obtain ⟨stack', hpick, hlater⟩ := pick_spec hrest
    rw [hrest, List.length_cons] at hn
    rw [gather, hpick, hrest, List.take_succ_cons, ← hlater]
    rw [← hlater] at hn
    simp only [Option.bind_eq_bind, Option.bind_some]
    cases o with
    | none => exact ih (Nat.le_of_succ_le_succ hn) (by omega)
    | some src =>
      dsimp only
      have hlen : (items ++ [[slash], src.text]).length = items.length + 2 := List.length_append
      rw [if_neg (by omega), ih (Nat.le_of_succ_le_succ hn) (by omega), List.reduceOption_cons_of_some, List.flatMap_cons,
        List.append_assoc]

def bufFold : List UInt8 → List CText → Option (Except TooLong (List UInt8))
  | buf, [] => some (.ok buf)
  | buf, p :: ps =>
    match bufAppend buf p with
    | none => none
    | some (.error e) => some (.error e)
    | some (.ok buf) => bufFold buf ps

theorem fillBuf_spec {buf : List UInt8} (hn : n - (maxParts - 1) ≤ (remaining link rem stack part).length) :
    ∃ stack', remaining link rem stack' (part + (n - (maxParts - 1))) =
        (remaining link rem stack part).drop (n - (maxParts - 1)) ∧
      fillBuf link rem n part stack buf =
        (bufFold buf ((remaining link rem stack part).take (n - (maxParts - 1))).reduceOption).map
          (Except.map fun buf => ⟨min n (maxParts - 1), part + (n - (maxParts - 1)), stack', buf⟩) := by
  induction n generalizing part stack buf with
  | zero => exact ⟨stack, rfl, rfl⟩
  | succ n ih =>
    rw [fillBuf]
    split
    · next hle =>
      rw [Nat.sub_eq_zero_of_le hle, Nat.min_eq_left hle]
      exact ⟨stack, rfl, rfl⟩
    · next hle =>
      have hsub : n + 1 - (maxParts - 1) = n - (maxParts - 1) + 1 := by omega
      have hmin : min (n + 1) (maxParts - 1) = min n (maxParts - 1) := by omega
      rw [hsub] at hn ⊢
      obtain ⟨o, rest, hrest⟩ := List.exists_cons_of_length_pos (Nat.lt_of_lt_of_le (Nat.succ_pos _) hn)
      obtain ⟨stack', hpick, hlater⟩ := pick_spec hrest
      rw [hrest, List.length_cons, ← hlater] at hn
      rw [hpick, hrest, List.take_succ_cons, List.drop_succ_cons, ← hlater, hmin, Nat.add_comm _ 1, ← Nat.add_assoc]
      simp only [Option.bind_eq_bind, Option.bind_some]
      cases o with
      | none => exact ih (Nat.le_of_succ_le_succ hn)
      | some src =>
        dsimp only
        rw [List.reduceOption_cons_of_some, bufFold]
        cases happ : bufAppend buf src with
        | none =>
          obtain ⟨stack'', hdrop, -⟩ := @ih _ _ buf (Nat.le_of_succ_le_succ hn)
          exact ⟨stack'', hdrop, rfl⟩
        | some r =>
          cases r with
          | error e =>
            obtain ⟨stack'', hdrop, -⟩ := @ih _ _ buf (Nat.le_of_succ_le_succ hn)
            exact ⟨stack'', hdrop, rfl⟩
          | ok buf' => exact ih (Nat.le_of_succ_le_succ hn)

-- The buffer

theorem length_addSlash_le : s.length ≤ (addSlash s).length := by
  rw [addSlash]
  split
  · exact (List.length_append ▸ Nat.le_add_right _ _)
  · exact Nat.le_refl _

theorem FitsBuffer.prefix {qs : List CText} (h : FitsBuffer (ps ++ qs)) : FitsBuffer ps := by
  induction qs using List.reverseRecOn with
  | nil => rwa [List.append_nil] at h
  | append_singleton qs q ih =>
    rw [← List.append_assoc, FitsBuffer, joined_append, List.length_append] at h
    have hle := length_addSlash_le (s := joined (ps ++ qs))
    exact ih (Nat.lt_of_le_of_lt hle (Nat.lt_of_le_of_lt (Nat.le_add_right _ _) h))

theorem bufAppend_spec (h : FitsBuffer ps) :
    (FitsBuffer (ps ++ [p]) → bufAppend (joined ps) p = some (.ok (joined (ps ++ [p])))) ∧
    (¬ FitsBuffer (ps ++ [p]) → bufAppend (joined ps) p =
      if (pathMax - (addSlash (joined ps)).length - p.head) % 4 = 0 then some (.error .ENAMETOOLONG) else none) := by
  have hnot : ¬ (addSlash (joined ps) ≠ joined ps ∧ (joined ps).length = pathMax) := fun hfull => by
    rw [FitsBuffer, hfull.2] at h
    exact Nat.lt_irrefl _ h
  rw [FitsBuffer, joined_append, List.length_append, bufAppend, if_neg hnot]
  constructor
  · intro hfits
    have hlt : p.length < pathMax - (addSlash (joined ps)).length := Nat.lt_sub_of_add_lt (by rw [Nat.add_comm]; exact hfits)
    have hint : pathMax - (addSlash (joined ps)).length - p.lastWord < 2 ^ 31 := by
      have hmax : pathMax = 4000 := rfl
      omega
    dsimp only
    rw [strscpy_fits hlt hint]
    dsimp only
    rw [if_neg (Nat.not_lt.mpr hlt)]
    exact if_pos hfits
  · intro hfits
    have hle : pathMax - (addSlash (joined ps)).length ≤ p.length :=
      Nat.sub_le_of_le_add (Nat.add_comm _ p.length ▸ Nat.not_lt.mp hfits)
    dsimp only
    by_cases hword : (pathMax - (addSlash (joined ps)).length - p.head) % 4 = 0
    · rw [strscpy_cut hle, if_neg (Nat.not_lt.mpr ((strscpy_reach hle).mpr hword)), if_pos hword]
    · rw [if_pos (Nat.lt_of_not_le fun hin => hword ((strscpy_reach hle).mp hin)), if_neg hword]

theorem bufFold_spec {pre : List CText} (h : FitsBuffer pre) :
    (FitsBuffer (pre ++ ps) → bufFold (joined pre) ps = some (.ok (joined (pre ++ ps)))) ∧
    (¬ FitsBuffer (pre ++ ps) → ∃ above p post, pre ++ ps = above ++ p :: post ∧ FitsBuffer above ∧
      ¬ FitsBuffer (above ++ [p]) ∧ bufFold (joined pre) ps =
        if (pathMax - (addSlash (joined above)).length - p.head) % 4 = 0 then some (.error .ENAMETOOLONG) else none) := by
  induction ps generalizing pre with
  | nil =>
    rw [List.append_nil]
    exact ⟨fun _ => rfl, fun hno => absurd h hno⟩
  | cons q ps ih =>
    rw [List.append_cons]
    by_cases hq : FitsBuffer (pre ++ [q])
    · rw [bufFold, (bufAppend_spec h).1 hq]
      exact ih hq
    · refine ⟨fun hfits => absurd hfits.prefix hq, fun _ => ⟨pre, q, ps, List.append_assoc .., h, hq, ?_⟩⟩
      rw [bufFold, (bufAppend_spec h).2 hq]
      by_cases hword : (pathMax - (addSlash (joined pre)).length - q.head) % 4 = 0
      · rw [if_pos hword]
      · rw [if_neg hword]

theorem cutsWell_iff {above post : List CText} (he : ps = above ++ p :: post) (h : FitsBuffer above)
    (hp : ¬ FitsBuffer (above ++ [p])) :
    CutsWell ps ↔ (pathMax - (addSlash (joined above)).length - p.head) % 4 = 0 := by
  refine ⟨fun hcut => hcut above p post he h hp, fun hcut above' p' post' he' h' hp' => ?_⟩
  rw [he, List.append_eq_append_iff] at he'
  obtain ⟨mid, rfl, hmid⟩ | ⟨mid, rfl, hmid⟩ := he'
  · cases mid with
    | nil =>
      obtain ⟨rfl, rfl⟩ := List.cons_eq_cons.mp hmid
      rwa [List.append_nil]
    | cons m mid =>
      obtain ⟨rfl, -⟩ := List.cons_eq_cons.mp hmid
      rw [List.append_cons] at h'
      exact absurd h'.prefix hp
  · cases mid with
    | nil =>
      obtain ⟨rfl, rfl⟩ := List.cons_eq_cons.mp hmid
      rwa [List.append_nil] at hcut
    | cons m mid =>
      obtain ⟨rfl, -⟩ := List.cons_eq_cons.mp hmid
      rw [List.append_cons] at h
      exact absurd h.prefix hp'

theorem bufFold_nil_spec :
    (FitsBuffer ps → bufFold [] ps = some (.ok (joined ps))) ∧
    (¬ FitsBuffer ps →
      (CutsWell ps → bufFold [] ps = some (.error .ENAMETOOLONG)) ∧ (¬ CutsWell ps → bufFold [] ps = none)) := by
  have hempty : FitsBuffer [] := by decide
  refine ⟨(bufFold_spec hempty).1, fun hno => ?_⟩
  obtain ⟨above, p, post, hsplit, habove, hp, hfold⟩ := (bufFold_spec hempty).2 hno
  rw [List.nil_append] at hsplit
  have hfold' : bufFold [] ps = _ := hfold
  rw [cutsWell_iff hsplit habove hp, hfold']
  exact ⟨fun hword => if_pos hword, fun hword => if_neg hword⟩

-- What is sent

def sent (link : CText) (rem : Option CText) (stack : List CText) : List CText :=
  ((slots link rem stack).take (count rem stack)).reduceOption

theorem sent_some (r : CText) : sent link (some r) stack = parts link (some r) stack := by
  have hlen : count (some r) stack = (slots link (some r) stack).length := by
    simp [count, slots]
    omega
  rw [sent, hlen, List.take_length, slots, parts]
  simp [List.reduceOption]

theorem sent_none_nil : sent link none [] = parts link none [] := rfl

theorem sent_none_append {above : List CText} {bottom : CText} :
    sent link none (above ++ [bottom]) = skipSlashes link :: above := by
  have hcount : count none (above ++ [bottom]) = (above.map some).length + 2 := by
    simp [count]
    omega
  rw [sent, slots, hcount, List.map_append, List.take_succ_cons, List.take_succ_cons, List.take_left]
  simp [List.reduceOption]

theorem flatten_items (qs : List CText) :
    (qs.flatMap fun q => [[slash], q.text]).flatten = qs.flatMap fun q => slash :: q.text := by
  induction qs with
  | nil => rfl
  | cons q qs ih =>
    rw [List.flatMap_cons, List.flatten_append, ih, List.flatMap_cons, List.flatten_cons, List.flatten_cons,
      List.flatten_nil, List.append_nil]
    rfl

theorem count_le (link : CText) : count rem stack ≤ (slots link rem stack).length := by
  rw [count, slots, List.length_cons, List.length_cons, List.length_map]
  split <;> omega

theorem squeeze_joined_append {qs : List CText} (hps : ps ≠ []) :
    squeeze (joined ps ++ qs.flatMap fun q => slash :: q.text) = squeeze (slashed (ps ++ qs)) := by
  rw [slashed_append hps]
  exact (squeeze_append_congr (squeeze_joined ps).1 (squeeze_joined ps).2).1

theorem propagateResolve_eq : propagateResolve link rem stack =
    if count rem stack ≤ maxParts then
      (gather (skipSlashes link) rem (count rem stack - 1) 1 stack [(skipSlashes link).text]).bind (some <| .ok ·)
    else
      (fillBuf (skipSlashes link) rem (count rem stack) 0 stack []).bind fun
        | .error e => some (.error e)
        | .ok f => (gather (skipSlashes link) rem f.partsLeft f.part f.stack [f.buf]).bind (some <| .ok ·) := rfl

theorem propagateResolve_few (h : count rem stack ≤ maxParts) :
    ∃ items, propagateResolve link rem stack = some (.ok items) ∧
      squeeze items.flatten = squeeze (slashed (sent link rem stack)) := by
  have hle := @count_le rem stack link
  have hpos : 1 ≤ count rem stack := by rw [count, Nat.add_assoc]; exact Nat.le_add_right _ _
  have hlater : remaining (skipSlashes link) rem stack 1 = (slots link rem stack).tail := rfl
  have hgather : gather (skipSlashes link) rem (count rem stack - 1) 1 stack [(skipSlashes link).text] = _ :=
    gather_spec (by rw [hlater, List.length_tail]; omega) (by rw [List.length_singleton]; omega)
  rw [propagateResolve_eq, if_pos h, hgather]
  refine ⟨_, rfl, ?_⟩
  have htake : (slots link rem stack).take (count rem stack) =
      some (skipSlashes link) :: (slots link rem stack).tail.take (count rem stack - 1) := by
    rw [slots, ← Nat.sub_add_cancel hpos]
    rfl
  rw [sent, htake, List.reduceOption_cons_of_some, List.flatten_append, flatten_items, slashed, hlater,
    List.flatten_singleton]

theorem propagateResolve_many (h : ¬ count rem stack ≤ maxParts) :
    (FitsBuffer (buffered link rem stack) → ∃ items, propagateResolve link rem stack = some (.ok items) ∧
      squeeze items.flatten = squeeze (slashed (sent link rem stack))) ∧
    (¬ FitsBuffer (buffered link rem stack) →
      (CutsWell (buffered link rem stack) → propagateResolve link rem stack = some (.error .ENAMETOOLONG)) ∧
      (¬ CutsWell (buffered link rem stack) → propagateResolve link rem stack = none)) := by
  have hle := @count_le rem stack link
  have hnum : remaining (skipSlashes link) rem stack 0 = slots link rem stack := rfl
  obtain ⟨stack', hlater, hfill⟩ := @fillBuf_spec (skipSlashes link) rem stack (count rem stack) 0 [] (by rw [hnum]; omega)
  rw [hnum, Nat.zero_add] at hlater hfill
  have hbuf : ((slots link rem stack).take (count rem stack - (maxParts - 1))).reduceOption = buffered link rem stack := by
    rw [buffered, if_neg h]
  rw [hbuf] at hfill
  rw [propagateResolve_eq, if_neg h, hfill]
  constructor
  · intro hfits
    have hroom : maxParts - 1 ≤ ((slots link rem stack).drop (count rem stack - (maxParts - 1))).length := by
      rw [List.length_drop]
      omega
    have hgather : gather (skipSlashes link) rem (maxParts - 1) (count rem stack - (maxParts - 1)) stack'
        [joined (buffered link rem stack)] = _ :=
      gather_spec (hlater ▸ hroom) (by rw [List.length_singleton]; decide)
    have hmin : min (count rem stack) (maxParts - 1) = maxParts - 1 := by omega
    have hne : buffered link rem stack ≠ [] := by
      have hsome : count rem stack - (maxParts - 1) ≠ 0 := by omega
      obtain ⟨k, hk⟩ := Nat.exists_eq_add_one_of_ne_zero hsome
      rw [← hbuf, hk, slots, List.take_succ_cons, List.reduceOption_cons_of_some]
      exact List.cons_ne_nil _ _
    have hall : buffered link rem stack ++
        (((slots link rem stack).drop (count rem stack - (maxParts - 1))).take (maxParts - 1)).reduceOption =
          sent link rem stack := by
      rw [← hbuf, ← List.reduceOption_append, ← List.take_add, Nat.sub_add_cancel (by omega), sent]
    rw [bufFold_nil_spec.1 hfits]
    simp only [Option.map_some, Except.map, Option.bind_some, hmin]
    rw [hgather, hlater]
    refine ⟨_, rfl, ?_⟩
    rw [List.flatten_append, flatten_items, List.flatten_singleton, squeeze_joined_append hne, hall]
  · intro hlong
    obtain ⟨hcut, hover⟩ := bufFold_nil_spec.2 hlong
    constructor
    · intro hwell
      rw [hcut hwell]
      rfl
    · intro hwell
      rw [hover hwell]
      rfl

theorem propagateResolve_fits (h : FitsBuffer (buffered link rem stack)) :
    ∃ items, propagateResolve link rem stack = some (.ok items) ∧
      squeeze items.flatten = squeeze (slashed (sent link rem stack)) := by
  by_cases hfew : count rem stack ≤ maxParts
  · exact propagateResolve_few hfew
  · exact (propagateResolve_many hfew).1 h

/-- A part that does not fit is `ENAMETOOLONG`, unless the buffer is overrun. -/
theorem propagateResolve_long (h : ¬ FitsBuffer (buffered link rem stack)) :
    (CutsWell (buffered link rem stack) → propagateResolve link rem stack = some (.error .ENAMETOOLONG)) ∧
    (¬ CutsWell (buffered link rem stack) → propagateResolve link rem stack = none) := by
  have hmany : ¬ count rem stack ≤ maxParts := fun hfew => by
    rw [buffered, if_pos hfew] at h
    exact h (by decide)
  exact (propagateResolve_many hmany).2 h

theorem squeeze_dropped {bottom : CText} (hps : ps ≠ []) :
    squeeze (slashed ps) = squeeze (slashed (ps ++ [bottom])) ↔
      (slashed ps = [] ∨ (slashed ps).getLast? = some slash) ∧ ∀ c ∈ bottom.text, c = slash := by
  rw [slashed_append hps, List.flatMap_singleton, squeeze, squeeze, squeezeFrom_append, eq_comm, List.append_right_eq_self,
    squeezeFrom_eq_nil, endsIn_eq_true, List.forall_mem_cons]
  simp

theorem squeeze_sent_iff : squeeze (slashed (sent link rem stack)) = squeeze (slashed (parts link rem stack)) ↔
    rem.isSome ∨ stack = [] ∨ Vacuous link stack := by
  cases rem with
  | some r =>
    rw [sent_some]
    simp
  | none =>
    by_cases hstack : stack = []
    · rw [hstack, sent_none_nil]
      simp
    · obtain ⟨above, bottom, rfl⟩ := (List.eq_nil_or_concat' stack).resolve_left hstack
      rw [sent_none_append, parts, Option.toList_none, List.nil_append, ← List.cons_append,
        squeeze_dropped (List.cons_ne_nil _ _)]
      constructor
      · rintro ⟨hends, hslashes⟩
        exact .inr (.inr ⟨above, bottom, rfl, hslashes, hends⟩)
      · rintro (hno | hno | ⟨above', bottom', heq, hslashes, hends⟩)
        · cases hno
        · exact absurd hno hstack
        · obtain ⟨rfl, hlast⟩ := List.append_inj' heq rfl
          obtain ⟨rfl, -⟩ := List.cons_eq_cons.mp hlast
          exact ⟨hends, hslashes⟩

/-- **The parts are whole unless the bottom of the stack is dropped for want of a remainder, or what
does not fit the buffer overruns it.** -/
theorem whole_iff (link : CText) (rem : Option CText) (stack : List CText) : Whole link rem stack ↔
    if FitsBuffer (buffered link rem stack) then rem.isSome ∨ stack = [] ∨ Vacuous link stack
    else CutsWell (buffered link rem stack) := by
  by_cases hfits : FitsBuffer (buffered link rem stack)
  · rw [if_pos hfits, ← squeeze_sent_iff]
    obtain ⟨items, hsend, hread⟩ := propagateResolve_fits hfits
    rw [Whole, hsend, ← hread]
    simp
  · rw [if_neg hfits]
    obtain ⟨hwell, hover⟩ := propagateResolve_long hfits
    refine ⟨fun hwhole => by_contra fun hcut => ?_, fun hcut => .inl (hwell hcut)⟩
    rw [Whole, hover hcut] at hwhole
    obtain hno | ⟨_, hno, -⟩ := hwhole <;> cases hno

/-- Where the link is `a` and `b` is left on the stack, `b` is not sent. -/
theorem whole_fails : ¬ Whole ⟨0, [97], by decide⟩ none [⟨0, [98], by decide⟩] := by
  have hsend : propagateResolve ⟨0, [97], by decide⟩ none [⟨0, [98], by decide⟩] = some (.ok [[97]]) := rfl
  rw [Whole, hsend]
  rintro (hno | ⟨items, hitems, hread⟩)
  · cases hno
  · cases hitems
    exact absurd hread (by decide)

end Sneks.Squashfs

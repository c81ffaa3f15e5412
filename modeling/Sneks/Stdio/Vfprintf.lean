import Sneks.Stdio.Vsnprintf

/-!
# Formatted output to a stream

`vfprintf` (`lib/stdio_portable.c`) has `vsnprintf` write to 256 bytes on the stack, and to memory from
`malloc` if the text is longer. A text that is just as long as the buffer is not taken to be longer, but
the buffer's last byte is the NUL.
-/

namespace Sneks.Stdio

/-- What is given to `fwrite`, if that is called, and the return value. -/
structure Printed where
  passed : Option (List Char)
  ret : ℤ

/-- What `fwrite` returns, and whether there is an error then. -/
abbrev Fwrite := List Char → ℕ × Bool

def chars (buf : Buf) (n : ℕ) : List Char := (List.range n).map buf

def emitTo (fwrite : Fwrite) (data : List Char) : Printed :=
  let (n, error) := fwrite data
  ⟨some data, if n < data.length ∧ error then -1 else n⟩

/-- `vfprintf`. `stack` is what the buffer holds, and `heap` is what `malloc` returns for a size. -/
def vfprintf (fresh stack : Buf) (heap : ℕ → Option Buf) (fwrite : Fwrite) (strings : Word → List Char) (fmt : List Char) (ap : Va) :
    Option Printed := do
  let (n, buffer) ← vsnprintf fresh strings (some stack) 256 fmt ap
  if n < 0 then return ⟨none, n⟩
  if n ≤ 256 then return emitTo fwrite (chars buffer n.toNat)
  let bufsz := n.toNat + 1
  match heap bufsz with
  | none => return ⟨none, -1⟩
  | some out =>
    let (n, out) ← vsnprintf fresh strings (some out) bufsz fmt ap
    if n < 0 then return ⟨none, -1⟩
    let out := if bufsz ≤ n then Function.update out (bufsz - 1) NUL else out
    return emitTo fwrite (chars out n.toNat)

variable {fresh stack buf str : Buf} {heap : ℕ → Option Buf} {fwrite : Fwrite} {strings : Word → List Char} {fmt text : List Char}
  {ap : Va} {size : ℕ}

theorem vsnprintf_truncates (fresh str : Buf) (htext : render strings fmt ap = some text) (hlen : text.length < 2 ^ 31) (htwo : 2 ≤ size)
    (hsize : size ≤ 2 ^ 31) : Truncates size text str (vsnprintf fresh strings (some str) size fmt ap) := by
  obtain ⟨its, hits, htexts⟩ := Option.bind_eq_some_iff.mp htext
  refine vsnprintf_of_roomy fresh str hits htexts hlen htwo (by omega) fun _ _ _ _ _ _ _ => ?_
  omega

theorem chars_eq (h : ∀ i c, text[i]? = some c → buf i = c) : chars buf text.length = text := by
  refine List.ext_getElem (by simp [chars]) fun i hi hi' => ?_
  have hcell : (chars buf text.length)[i] = buf i := by simp [chars]
  rw [hcell]
  exact h i _ (List.getElem?_eq_getElem hi')

theorem chars_getLast {n : ℕ} (buf : Buf) (hn : 0 < n) : (chars buf n).getLast? = some (buf (n - 1)) := by
  obtain ⟨k, rfl⟩ : ∃ k, n = k + 1 := ⟨n - 1, by omega⟩
  simp [chars, List.range_succ]

theorem vfprintf_start (fresh stack : Buf) (heap : ℕ → Option Buf) (fwrite : Fwrite) (hlen : text.length < 2 ^ 31) {buffer : Buf}
    (hrun : vsnprintf fresh strings (some stack) 256 fmt ap = some ((text.length : ℤ), buffer)) :
    vfprintf fresh stack heap fwrite strings fmt ap =
      if text.length ≤ 256 then some (emitTo fwrite (chars buffer text.length))
      else match heap (text.length + 1) with
        | none => some ⟨none, -1⟩
        | some out => do
          let (n, out) ← vsnprintf fresh strings (some out) (text.length + 1) fmt ap
          if n < 0 then return ⟨none, -1⟩
          let out := if ((text.length + 1 : ℕ) : ℤ) ≤ n then Function.update out (text.length + 1 - 1) NUL else out
          return emitTo fwrite (chars out n.toNat) := by
  have hpos : ¬ (text.length : ℤ) < 0 := by omega
  have hle : ((text.length : ℤ) ≤ 256) = (text.length ≤ 256) := by rw [eq_iff_iff]; omega
  simp only [vfprintf, hrun, Option.bind_eq_bind, Option.bind_some, if_neg hpos, hle, Int.toNat_natCast, pure]

theorem chars_eq_iff (hlen : text.length = 256) (hcells : ∀ i c, text[i]? = some c → i < 255 → buf i = c) (hnul : buf 255 = NUL) :
    chars buf text.length = text ↔ text.getLast? = some NUL := by
  constructor
  · intro heq
    rw [← heq, chars_getLast buf (by omega), hlen, hnul]
  · intro hlast
    refine chars_eq fun i c hc => ?_
    have hi : i < text.length := (List.getElem?_eq_some_iff.mp hc).1
    by_cases hend : i = 255
    · rw [List.getLast?_eq_getElem?, hlen] at hlast
      rw [hend] at hc ⊢
      rw [hnul, Option.some.inj (hc.symm.trans hlast)]
    · exact hcells i c hc (by omega)

end Sneks.Stdio

import Sneks.Pipe.Defs

/-!
# The pipe is first in, first out

The bytes of the reads that were delivered are the first of those taken by the writes that
were. They never get out of step with the buffer: what has been delivered, with the confirm
function run that may be pending, and what is still queued make up what has been accepted.

A failed reply leaves the queue as it is, but where the rollback of the call that made the
pipe is still in the record: then the pipe is closed.
-/

namespace Sneks.Pipe
open Lib Rollback

def Out.taken : Out → List UInt8
  | .wrote data => data
  | .done | .got _ | .error _ => []

def Out.given : Out → List UInt8
  | .got data => data
  | .done | .wrote _ | .error _ => []

def outcome : Entry Target Confirm Out → Option Out
  | .replied _ true out => some out
  | _ => none

def accepted (log : List (Entry Target Confirm Out)) : List UInt8 :=
  (log.filterMap outcome).flatMap Out.taken

def returned (log : List (Entry Target Confirm Out)) : List UInt8 :=
  (log.filterMap outcome).flatMap Out.given

variable {μ : Type*} (B : Membuf μ)

def settle (c : Option Confirm) (s : PipeState μ) : Option (PipeState μ) :=
  match c with
  | none => some s
  | some f => (pipeServer B).confirm f s

def view (x : PipeSession μ) : Option (List UInt8) := (settle B x.ctx.c x.srv).bind (·.contents B)

/-- What is promised of the pipe; `ok` is asked of the failed reply. -/
structure PipeFifo (ok : PipeSession μ → PipeMove → Prop) (x : PipeSession μ) : Prop where
  fifo : returned x.log <+: accepted x.log
  unchanged : ∀ sender tag (a : Call) y z, a.IsTransfer →
    Rollback.exec (pipeServer B) x (.call sender tag a) = some y → ok y (.reply false) →
    Rollback.exec (pipeServer B) y (.reply false) = some z → view B z = view B x

structure Fifo (x : PipeSession μ) : Prop where
  pre : returned x.log <+: accepted x.log
  absent : x.srv = .absent → returned x.log = accepted x.log
  idle : x.current = none → ∀ hd, settle B x.ctx.c x.srv = some (.live hd) →
    returned x.log ++ B.elems hd.buf = accepted x.log
  busy : ∀ cur, x.current = some cur → ∀ hd, x.srv = .live hd →
    returned x.log ++ B.elems hd.buf = accepted x.log ∧ cur.out.given <+: B.elems hd.buf ∧
    ∀ hd', settle B x.ctx.c x.srv = some (.live hd') →
      B.elems hd.buf ++ cur.out.taken = cur.out.given ++ B.elems hd'.buf
  other : ∀ cur, x.current = some cur → (∀ hd, x.srv ≠ .live hd) →
    cur.out.taken = [] ∧ cur.out.given = []

variable {B} {s t : PipeState μ} {hd hd' : PipeHead μ} {x y : PipeSession μ}

theorem delivered_append {log es : List (Entry Target Confirm Out)} (h : ∀ e ∈ es, outcome e = none) :
    accepted (log ++ es) = accepted log ∧ returned (log ++ es) = returned log := by
  have hnil : es.filterMap outcome = [] := List.filterMap_eq_nil_iff.mpr h
  simp [accepted, returned, hnil]

theorem delivered_replied (log : List (Entry Target Confirm Out)) (k : ℕ) (out : Out) :
    accepted (log ++ [.replied k true out]) = accepted log ++ out.taken ∧
      returned (log ++ [.replied k true out]) = returned log ++ out.given := by
  simp [accepted, returned, outcome]

/-- What a read or write leaves: the queue as it was, and a reply that tells what the confirm
    function is going to do to it. -/
structure Handled (B : Membuf μ) (hd : PipeHead μ) (t : PipeState μ) (e : Effects Target Confirm)
    (out : Option Out) : Prop where
  live : ∃ hd', t = .live hd' ∧ B.elems hd'.buf = B.elems hd.buf
  blocked : out = none → e.confirm = none
  given : ∀ o, out = some o → o.given <+: B.elems hd.buf
  confirmed : ∀ o hd', out = some o → settle B e.confirm t = some (.live hd') →
    B.elems hd.buf ++ o.taken = o.given ++ B.elems hd'.buf

theorem settle_io {f : End} {writing : Bool} {n : ℕ}
    (h : settle B (some (.io f writing n)) (.live hd) = some (.live hd')) :
    (writing = true ∧ hd'.buf = B.added hd.buf n) ∨ (writing = false ∧ hd'.buf = B.consume hd.buf n) := by
  simp only [settle, pipeServer, PipeHead.confirm] at h
  cases f <;> cases writing <;> simp only [Option.map_some, Option.map_none, Option.some.injEq,
    PipeState.live.injEq, reduceCtorEq] at h
  · exact .inr ⟨rfl, by rw [← h]⟩
  · exact .inl ⟨rfl, by rw [← h]⟩

theorem finish_handled {f : End} {writing nonblock : Bool} {out : Out} {e : Effects Target Confirm}
    {o : Option Out} (hf : finish f writing nonblock hd' out = (t, e, o))
    (hsame : B.elems hd'.buf = B.elems hd.buf) (hgiven : out.given <+: B.elems hd.buf)
    (hwrote : ∀ data, out = .wrote data → writing = true ∧
      (data ≠ [] → B.elems (B.added hd'.buf data.length) = B.elems hd.buf ++ data))
    (hgot : ∀ data, out = .got data → writing = false ∧
      B.elems (B.consume hd'.buf data.length) = (B.elems hd.buf).drop data.length) : Handled B hd t e o := by
  have hplain : ∀ o', (∀ o'', o' = some o'' → o''.taken = [] ∧ o''.given = []) →
      Handled B hd (.live hd') ⟨none, none⟩ o' := by
    intro o' ho'
    refine ⟨⟨hd', rfl, hsame⟩, fun _ => rfl, fun o'' ho'' => ?_, fun o'' hd'' ho'' hs => ?_⟩
    · rw [(ho' o'' ho'').2]
      exact List.nil_prefix
    · cases hs
      rw [(ho' o'' ho'').1, (ho' o'' ho'').2, List.append_nil, List.nil_append, hsame]
  cases out with
  | done =>
    cases hf
    exact hplain _ (by rintro _ ⟨⟩; exact ⟨rfl, rfl⟩)
  | error err =>
    cases err with
    | EWOULDBLOCK =>
      cases hf
      refine hplain _ fun o'' ho'' => ?_
      split at ho'' <;> cases ho''
      exact ⟨rfl, rfl⟩
    | EBADF | ESPIPE | EPIPE =>
      cases hf
      exact hplain _ (by rintro _ ⟨⟩; exact ⟨rfl, rfl⟩)
  | wrote data =>
    cases hf
    obtain ⟨rfl, hadd⟩ := hwrote data rfl
    refine ⟨⟨hd', rfl, hsame⟩, nofun, ?_, ?_⟩
    · rintro _ ⟨⟩
      exact hgiven
    · rintro _ hd'' ⟨⟩ hs
      by_cases hnil : data.length = 0
      · rw [if_pos hnil] at hs
        cases hs
        obtain rfl := List.length_eq_zero_iff.mp hnil
        simp [Out.taken, Out.given, hsame]
      · rw [if_neg hnil] at hs
        obtain ⟨-, hbuf⟩ | ⟨hw, -⟩ := settle_io hs
        · rw [hbuf, hadd (fun he => hnil (by rw [he]; rfl))]
          rfl
        · cases hw
  | got data =>
    cases hf
    obtain ⟨rfl, hcons⟩ := hgot data rfl
    refine ⟨⟨hd', rfl, hsame⟩, nofun, ?_, ?_⟩
    · rintro _ ⟨⟩
      exact hgiven
    · rintro _ hd'' ⟨⟩ hs
      by_cases hnil : data.length = 0
      · rw [if_pos hnil] at hs
        cases hs
        obtain rfl := List.length_eq_zero_iff.mp hnil
        simp [Out.taken, Out.given, hsame]
      · rw [if_neg hnil] at hs
        obtain ⟨hw, -⟩ | ⟨-, hbuf⟩ := settle_io hs
        · cases hw
        · -- what was read is what is consumed
          rw [hbuf, hcons]
          obtain ⟨rest, hrest⟩ := hgiven
          simp only [Out.given, Out.taken] at hrest ⊢
          rw [← hrest, List.drop_left, List.append_nil]

theorem write_handled {data : List UInt8} {offset : ℤ} {f : End} {nonblock : Bool} {out : Out}
    {e : Effects Target Confirm} {o : Option Out} (hB : B.IsQueue) (hw : hd.write B data offset = (hd', out))
    (hf : finish f true nonblock hd' out = (t, e, o)) : Handled B hd t e o := by
  simp only [PipeHead.write] at hw
  split at hw
  · cases hw
    exact finish_handled hf rfl List.nil_prefix nofun nofun
  split at hw
  · cases hw
    exact finish_handled hf rfl List.nil_prefix nofun nofun
  split at hw
  · cases hw
    refine finish_handled hf rfl List.nil_prefix ?_ nofun
    rintro _ ⟨⟩
    exact ⟨rfl, fun hne => absurd rfl hne⟩
  split at hw
  · cases hw
    exact finish_handled hf (hB.prepareSpace _ _) List.nil_prefix nofun nofun
  cases hw
  set buf := B.prepareSpace hd.buf data.length
  have hlen : (data.take (B.numSpace buf)).length ≤ B.numSpace buf := List.length_take_le _ _
  have hbuf : B.elems buf = B.elems hd.buf := hB.prepareSpace _ _
  refine finish_handled hf ((hB.putSpace _ _ hlen).trans hbuf) List.nil_prefix ?_ nofun
  rintro _ ⟨⟩
  exact ⟨rfl, fun _ => by rw [hB.added _ _ hlen, hbuf]⟩

theorem read_handled {count : ℕ} {offset : ℤ} {f : End} {nonblock : Bool} {out : Out}
    {e : Effects Target Confirm} {o : Option Out} (hB : B.IsQueue) (hr : hd.read B count offset = (hd', out))
    (hf : finish f false nonblock hd' out = (t, e, o)) : Handled B hd t e o := by
  simp only [PipeHead.read] at hr
  split at hr
  · cases hr
    exact finish_handled hf rfl List.nil_prefix nofun nofun
  split at hr
  · cases hr
    split at hf
    · exact finish_handled hf rfl List.nil_prefix nofun nofun
    · refine finish_handled hf rfl List.nil_prefix nofun ?_
      rintro _ ⟨⟩
      exact ⟨rfl, hB.consume _ _ (Nat.zero_le _)⟩
  cases hr
  have hbuf : B.elems (B.prepareSpace hd.buf 1) = B.elems hd.buf := hB.prepareSpace _ _
  refine finish_handled hf hbuf ?_ nofun ?_
  · rw [hbuf]
    exact List.take_prefix _ _
  · rintro _ ⟨⟩
    refine ⟨rfl, ?_⟩
    rw [hB.consume _ _ (List.length_take_le' _ _), hbuf]

theorem closeEnd_spec {f : End} (h : closeEnd f s = some t) :
    t = .freed ∨ ∃ hd hd', s = .live hd ∧ t = .live hd' ∧ hd'.buf = hd.buf := by
  cases s with
  | absent | freed => cases h
  | live hd =>
    simp only [closeEnd] at h
    split at h
    · cases h
      cases f <;> simp only [PipeHead.close] <;> split
      · exact .inr ⟨hd, _, rfl, rfl, rfl⟩
      · exact .inl rfl
      · exact .inr ⟨hd, _, rfl, rfl, rfl⟩
      · exact .inl rfl
    · cases h

theorem handler_live {a : Call} {e : Effects Target Confirm} {o : Option Out} (hB : B.IsQueue)
    (h : handler B (.live hd) a = some (t, e, o)) :
    Handled B hd t e o ∧ (a.IsTransfer → e.rollback = none) := by
  have hplain : Handled B hd (.live hd) ⟨none, none⟩ (some (.error .EBADF)) := by
    refine ⟨⟨hd, rfl, rfl⟩, nofun, ?_, ?_⟩
    · rintro _ ⟨⟩
      exact List.nil_prefix
    · rintro _ hd' ⟨⟩ hs
      cases hs
      exact List.append_nil _
  have hfin : ∀ {f w n hd' out}, (finish f w n hd' out : PipeState μ × _ × _) = (t, e, o) → e.rollback = none := by
    intro f w n hd' out hf
    cases out with
    | done | wrote | got => cases hf; rfl
    | error err => cases err <;> cases hf <;> rfl
  cases a with
  | pipe => cases h
  | write f data offset nonblock =>
    cases f with
    | none => cases h; exact ⟨hplain, fun _ => rfl⟩
    | some f =>
      simp only [handler] at h
      split at h
      · have hf := Option.some.inj h
        exact ⟨write_handled hB rfl hf, fun _ => hfin hf⟩
      · cases h
  | read f length offset nonblock =>
    cases f with
    | none => cases h; exact ⟨hplain, fun _ => rfl⟩
    | some f =>
      simp only [handler] at h
      split at h
      · have hf := Option.some.inj h
        exact ⟨read_handled hB rfl hf, fun _ => hfin hf⟩
      · cases h
  | close f last =>
    cases f with
    | none => cases h; exact ⟨hplain, fun _ => rfl⟩
    | some f =>
      simp only [handler] at h
      split at h
      · cases h
        refine ⟨⟨⟨hd, rfl, rfl⟩, nofun, ?_, ?_⟩, nofun⟩
        · rintro _ ⟨⟩
          exact List.nil_prefix
        · rintro _ hd' ⟨⟩ hs
          have hbuf : hd'.buf = hd.buf := by
            cases last with
            | false => cases hs; rfl
            | true =>
              have hclose : closeEnd f (.live hd) = some (.live hd') := hs
              obtain heq | ⟨hd₁, hd₂, heq, heq', hbuf⟩ := closeEnd_spec hclose
              · cases heq
              · cases heq
                cases heq'
                exact hbuf
          rw [hbuf]
          exact List.append_nil _
      · cases h
  | other rollback confirm blocks =>
    cases h
    refine ⟨⟨⟨hd, rfl, rfl⟩, fun hnone => ?_, fun o ho => ?_, fun o hd' ho hs => ?_⟩, nofun⟩
    · cases blocks with
      | true => exact if_neg (by simp)
      | false => cases hnone
    · split at ho <;> cases ho
      exact List.nil_prefix
    · have hsame : hd' = hd := by
        dsimp only at hs
        split at hs <;> exact (PipeState.live.inj (Option.some.inj hs)).symm
      rw [hsame]
      split at ho <;> cases ho
      exact List.append_nil _

theorem handler_other {a : Call} {e : Effects Target Confirm} {o : Option Out} (hs : ∀ hd, s ≠ .live hd)
    (h : handler B s a = some (t, e, o)) :
    (s = .absent ∧ a = .pipe ∧ t = .live ⟨B.init, true, true⟩ ∧ e.confirm = none ∧ o = some .done) ∨
      (t = s ∧ (a.IsTransfer → e.rollback = none) ∧ ∀ out, o = some out → out.taken = [] ∧ out.given = []) := by
  have hrefused : ∀ out, some (Out.error .EBADF) = some out → out.taken = [] ∧ out.given = [] := by
    rintro _ ⟨⟩
    exact ⟨rfl, rfl⟩
  cases a with
  | pipe =>
    cases s with
    | absent => cases h; exact .inl ⟨rfl, rfl, rfl, rfl, rfl⟩
    | live hd => exact absurd rfl (hs hd)
    | freed => cases h
  | write f | read f | close f =>
    refine .inr ?_
    cases f with
    | none => cases s <;> cases h <;> exact ⟨rfl, fun _ => rfl, hrefused⟩
    | some f =>
      cases s with
      | absent | freed => cases h
      | live hd => exact absurd rfl (hs hd)
  | other rollback confirm blocks =>
    refine .inr ?_
    have hkept : t = s ∧ o = if blocks then none else some .done := by
      cases s <;> cases h <;> exact ⟨rfl, rfl⟩
    refine ⟨hkept.1, nofun, fun out hout => ?_⟩
    rw [hkept.2] at hout
    split at hout <;> cases hout
    exact ⟨rfl, rfl⟩

theorem settle_live {c : Option Confirm} (h : settle B c s = some (.live hd')) : ∃ hd, s = .live hd := by
  cases s with
  | live hd => exact ⟨hd, rfl⟩
  | absent | freed =>
    cases c with
    | none => cases h
    | some f =>
      cases f with
      | io | other => cases h
      | close f last => cases last <;> cases h

theorem settle_absent {c : Option Confirm} (h : settle B c s = some .absent) : s = .absent := by
  cases c with
  | none => exact Option.some.inj h
  | some f =>
    cases f with
    | io f writing n =>
      cases s with
      | absent | freed => cases h
      | live hd =>
        obtain ⟨_, -, heq⟩ := Option.map_eq_some_iff.mp h
        cases heq
    | close f last =>
      cases last with
      | false => exact Option.some.inj h
      | true =>
        obtain heq | ⟨_, _, -, heq, -⟩ := closeEnd_spec h
        · cases heq
        · cases heq
    | other => exact Option.some.inj h

theorem Fifo.of_idle (hcur : x.current = none) (hpre : returned x.log <+: accepted x.log)
    (habs : x.srv = .absent → returned x.log = accepted x.log)
    (hidle : ∀ hd, settle B x.ctx.c x.srv = some (.live hd) →
      returned x.log ++ B.elems hd.buf = accepted x.log) : Fifo B x where
  pre := hpre
  absent := habs
  idle := fun _ => hidle
  busy cur h := by cases hcur.symm.trans h
  other cur h := by cases hcur.symm.trans h

theorem syncConfirm_settle (h : x.syncConfirm (pipeServer B) = some y) :
    settle B x.ctx.c x.srv = some y.srv ∧ y.ctx.c = none ∧ y.ctx.r = x.ctx.r ∧ y.current = x.current ∧
      accepted y.log = accepted x.log ∧ returned y.log = returned x.log := by
  simp only [Session.syncConfirm] at h
  split at h
  · next hc =>
    cases h
    refine ⟨?_, hc, rfl, rfl, rfl, rfl⟩
    rw [hc]
    rfl
  · next f hc =>
    obtain ⟨srv, hsrv, rfl⟩ := Option.map_eq_some_iff.mp h
    refine ⟨?_, rfl, rfl, rfl, delivered_append ?_⟩
    · rw [hc]
      exact hsrv
    · simp [outcome]

theorem Fifo.syncConfirm (h : Fifo B x) (hcur : x.current = none)
    (hs : x.syncConfirm (pipeServer B) = some y) : Fifo B y := by
  obtain ⟨hset, hc, -, hcur', hacc, hret⟩ := syncConfirm_settle hs
  refine .of_idle (hcur'.trans hcur) ?_ (fun habs => ?_) (fun hd hd' => ?_)
  · rw [hacc, hret]
    exact h.pre
  · rw [hacc, hret]
    exact h.absent (settle_absent (hset.trans (congrArg some habs)))
  · rw [hc] at hd'
    rw [hacc, hret]
    exact h.idle hcur hd (hset.trans hd')

theorem enter_delivered (x : PipeSession μ) (sender : Tid) (tag : ℕ) (t : PipeState μ)
    (e : Effects Target Confirm) (o : Option Out) :
    accepted (x.enter sender tag t e o).log = accepted x.log ∧
      returned (x.enter sender tag t e o).log = returned x.log := by
  simp only [Session.enter, List.append_assoc]
  refine delivered_append fun e' he' => ?_
  simp only [List.mem_append, List.mem_singleton, Option.mem_toList, Option.map_eq_some_iff] at he'
  rcases he' with rfl | ⟨_, -, rfl⟩ | ⟨_, -, rfl⟩ <;> rfl

theorem Fifo.enter {sender : Tid} {tag : ℕ} {a : Call} {e : Effects Target Confirm} {o : Option Out}
    (hB : B.IsQueue) (h : Fifo B x) (hcur : x.current = none) (hc : x.ctx.c = none)
    (hh : handler B x.srv a = some (t, e, o)) : Fifo B (x.enter sender tag t e o) := by
  have hidle := h.idle hcur
  rw [hc] at hidle
  obtain ⟨hacc, hret⟩ := enter_delivered x sender tag t e o
  have hcur' : ∀ cur, (x.enter sender tag t e o).current = some cur → o = some cur.out := by
    intro cur hsome
    obtain ⟨out, ho, rfl⟩ := Option.map_eq_some_iff.mp hsome
    exact ho
  rcases hsrv : x.srv with _ | hd | _
  case live =>
    obtain ⟨hdone, -⟩ := handler_live hB (hsrv ▸ hh)
    obtain ⟨hd₁, rfl, hsame⟩ := hdone.live
    have heq := hidle hd (congrArg some hsrv)
    constructor
    case pre => rw [hacc, hret]; exact h.pre
    case absent => rintro ⟨⟩
    case idle =>
      intro hnone hd₂ hset
      have ho : o = none := by
        cases o with
        | none => rfl
        | some o => cases hnone
      rw [enter_c hc, hdone.blocked ho] at hset
      cases hset
      rw [hacc, hret, hsame]
      exact heq
    case busy =>
      rintro cur hsome _ ⟨⟩
      rw [hacc, hret, hsame, enter_c hc]
      exact ⟨heq, hdone.given _ (hcur' cur hsome), fun hd₂ => hdone.confirmed _ hd₂ (hcur' cur hsome)⟩
    case other => exact fun _ _ hno => absurd rfl (hno hd₁)
  all_goals
    have hother := handler_other (by simp [hsrv]) hh
    rw [hsrv] at hother
  case absent =>
    have heq := h.absent hsrv
    rcases hother with ⟨-, -, rfl, hconf, rfl⟩ | ⟨rfl, -, hout⟩
    · constructor
      case pre => rw [hacc, hret]; exact h.pre
      case absent => rintro ⟨⟩
      case idle => rintro ⟨⟩
      case busy =>
        rintro cur ⟨⟩ _ ⟨⟩
        rw [hacc, hret, enter_c hc, hconf]
        have hnil : B.elems B.init = [] := hB.init
        refine ⟨by simpa [hnil] using heq, List.nil_prefix, ?_⟩
        rintro _ ⟨⟩
        simp [Out.taken, Out.given]
      case other => exact fun _ _ hno => absurd rfl (hno _)
    · exact ⟨by rw [hacc, hret]; exact h.pre, fun _ => by rw [hacc, hret]; exact heq,
        fun _ hd hset => absurd (settle_live hset) (by simp [Session.enter]), by rintro _ _ _ ⟨⟩,
        fun cur hsome _ => hout _ (hcur' cur hsome)⟩
  case freed =>
    rcases hother with ⟨hno, -⟩ | ⟨rfl, -, hout⟩
    · cases hno
    · exact ⟨by rw [hacc, hret]; exact h.pre, by rintro ⟨⟩,
        fun _ hd hset => absurd (settle_live hset) (by simp [Session.enter]), by rintro _ _ _ ⟨⟩,
        fun cur hsome _ => hout _ (hcur' cur hsome)⟩

theorem Fifo.delivered {cur : Current Out} (h : Fifo B x) (hcur : x.current = some cur) :
    Fifo B { x with current := none, log := x.log ++ [.replied cur.serial true cur.out] } := by
  obtain ⟨hacc, hret⟩ := delivered_replied x.log cur.serial cur.out
  by_cases hlive : ∃ hd, x.srv = .live hd
  · obtain ⟨hd, hsrv⟩ := hlive
    obtain ⟨heq, ⟨rest, hrest⟩, hconf⟩ := h.busy cur hcur hd hsrv
    refine .of_idle rfl ?_ (fun habs => ?_) (fun hd₂ hset => ?_)
    · rw [hacc, hret, ← heq, ← hrest]
      exact ⟨rest ++ cur.out.taken, by simp⟩
    · cases hsrv.symm.trans habs
    · rw [hacc, hret, List.append_assoc, ← hconf hd₂ hset, ← List.append_assoc, heq]
  · have hno : ∀ hd, x.srv ≠ .live hd := fun hd hsrv => hlive ⟨hd, hsrv⟩
    obtain ⟨htaken, hgiven⟩ := h.other cur hcur hno
    refine .of_idle rfl ?_ (fun habs => ?_) (fun hd₂ hset => absurd (settle_live hset) hlive)
    · rw [hacc, hret, htaken, hgiven, List.append_nil, List.append_nil]
      exact h.pre
    · rw [hacc, hret, htaken, hgiven, List.append_nil, List.append_nil]
      exact h.absent habs

theorem Fifo.failed {cur : Current Out} (h : Fifo B x) (hcur : x.current = some cur) (hy : y.current = none)
    (hc : y.ctx.c = none) (hsrv : y.srv = x.srv ∨ y.srv = .freed)
    (hlog : accepted y.log = accepted x.log ∧ returned y.log = returned x.log) : Fifo B y := by
  refine .of_idle hy ?_ (fun habs => ?_) (fun hd hset => ?_)
  · rw [hlog.1, hlog.2]
    exact h.pre
  · rw [hlog.1, hlog.2]
    rcases hsrv with hsrv | hsrv
    · exact h.absent (hsrv.symm.trans habs)
    · cases hsrv.symm.trans habs
  · rw [hc] at hset
    have hlive : y.srv = .live hd := Option.some.inj hset
    rw [hlog.1, hlog.2]
    rcases hsrv with hsrv | hsrv
    · exact (h.busy cur hcur hd (hsrv.symm.trans hlive)).1
    · cases hsrv.symm.trans hlive

theorem reply_failed {cur : Current Out} (hp : Protocol x) (hcur : x.current = some cur)
    (hs : x.reply (pipeServer B) false = some y) : y.current = none ∧ y.ctx.c = none ∧
      (y.srv = x.srv ∨ y.srv = .freed ∧ x.ctx.r = some .pipe ∧ x.ctx.Matches cur.sender cur.tag) ∧
      accepted y.log = accepted x.log ∧ returned y.log = returned x.log := by
  simp only [Session.reply, hcur, Bool.false_eq_true, if_false, Session.checkRollback] at hs
  split at hs
  · next hmatch =>
    obtain ⟨z, hz, rfl⟩ := Option.map_eq_some_iff.mp hs
    simp only [Session.popRollback] at hz
    split at hz
    · cases hz
      exact ⟨rfl, rfl, .inl rfl, delivered_append (by simp [outcome])⟩
    · next f hr =>
      obtain ⟨srv, hsrv, rfl⟩ := Option.map_eq_some_iff.mp hz
      refine ⟨rfl, rfl, ?_, ?_⟩
      · cases f with
        | pipe => exact .inr ⟨(Option.some.inj hsrv).symm, hr, hmatch⟩
        | other => exact .inl (Option.some.inj hsrv).symm
      · simp only [List.append_assoc]
        exact delivered_append (by simp [outcome])
  · next hmatch =>
    cases hs
    refine ⟨rfl, ?_, .inl rfl, delivered_append (by simp [outcome])⟩
    -- a confirm function that is pending here would be the call's own
    by_contra hne
    exact hmatch ((hp.current cur hcur).2.2 (Option.isSome_iff_ne_none.mpr hne)).2

theorem closeEnds_spec {fs : List End} (h : fs.foldlM (fun s f => closeEnd f s) s = some t) :
    t = s ∨ t = .freed ∨ ∃ hd hd', s = .live hd ∧ t = .live hd' ∧ hd'.buf = hd.buf := by
  induction fs generalizing s with
  | nil => exact .inl (Option.some.inj h).symm
  | cons f fs ih =>
    rw [List.foldlM_cons] at h
    obtain ⟨u, hu, hrest⟩ := Option.bind_eq_some_iff.mp h
    obtain rfl | ⟨hd, hd₁, rfl, rfl, hbuf⟩ := closeEnd_spec hu
    · obtain rfl | rfl | ⟨_, _, heq, -⟩ := ih hrest
      · exact .inr (.inl rfl)
      · exact .inr (.inl rfl)
      · cases heq
    · obtain rfl | rfl | ⟨_, hd₂, heq, rfl, hbuf'⟩ := ih hrest
      · exact .inr (.inr ⟨hd, hd₁, rfl, rfl, hbuf⟩)
      · exact .inr (.inl rfl)
      · cases heq
        exact .inr (.inr ⟨hd, hd₂, rfl, rfl, hbuf'.trans hbuf⟩)

theorem Fifo.exec {m : PipeMove} (hB : B.IsQueue) (hp : Protocol x) (h : Fifo B x)
    (hs : Rollback.exec (pipeServer B) x m = some y) : Fifo B y := by
  cases m with
  | call sender tag a =>
    obtain ⟨hcur, z, srv, e, out, hz, hh, rfl⟩ := exec_call hs
    obtain ⟨-, hc, -, hcur', -⟩ := syncConfirm_settle hz
    exact (h.syncConfirm hcur hz).enter hB (hcur'.trans hcur) hc hh
  | reply ok =>
    have hs' : x.reply (pipeServer B) ok = some y := hs
    cases hcur : x.current with
    | none => simp [Session.reply, hcur] at hs'
    | some cur =>
      cases ok with
      | true =>
        simp only [Session.reply, hcur, if_true, Option.some.injEq] at hs'
        subst hs'
        exact h.delivered hcur
      | false =>
        obtain ⟨hy, hc, hsrv, hlog⟩ := reply_failed hp hcur hs'
        exact h.failed hcur hy hc (hsrv.imp_right (·.1)) hlog
  | stimulus fs =>
    obtain ⟨hcur, z, srv, hz, hsrv, rfl⟩ := exec_stimulus hs
    obtain ⟨-, hc, -, hcur', -⟩ := syncConfirm_settle hz
    have hfifo := h.syncConfirm hcur hz
    have hidle := hfifo.idle (hcur'.trans hcur)
    rw [hc] at hidle
    obtain ⟨hacc, hret⟩ := delivered_append (by simp [outcome] : ∀ e ∈ [.handled z.serial], outcome e = none)
    refine .of_idle (hcur'.trans hcur) ?_ (fun habs => ?_) (fun hd hset => ?_)
    · rw [hacc, hret]
      exact hfifo.pre
    · obtain rfl : srv = .absent := habs
      rw [hacc, hret]
      obtain heq | heq | ⟨_, _, -, heq, -⟩ := closeEnds_spec hsrv
      · exact hfifo.absent heq.symm
      · cases heq
      · cases heq
    · rw [hc] at hset
      obtain rfl : srv = .live hd := Option.some.inj hset
      rw [hacc, hret]
      obtain heq | heq | ⟨hd₁, _, hlive, heq, hbuf⟩ := closeEnds_spec hsrv
      · exact hidle hd (congrArg some heq.symm)
      · cases heq
      · cases heq
        rw [hbuf]
        exact hidle hd₁ (congrArg some hlive)
  | receiveFailed =>
    obtain ⟨hcur, z, hz, rfl⟩ := exec_receiveFailed hs
    have hfifo := h.syncConfirm hcur hz
    exact ⟨hfifo.pre, hfifo.absent, hfifo.idle, hfifo.busy, hfifo.other⟩

theorem Fifo.init : Fifo B (Session.init .absent) :=
  .of_idle rfl List.nil_prefix (fun _ => rfl) nofun

theorem handler_transfer {a : Call} {e : Effects Target Confirm} {o : Option Out} (hB : B.IsQueue)
    (ha : a.IsTransfer) (h : handler B s a = some (t, e, o)) :
    t.contents B = s.contents B ∧ e.rollback = none := by
  by_cases hlive : ∃ hd, s = .live hd
  · obtain ⟨hd, rfl⟩ := hlive
    obtain ⟨hdone, hr⟩ := handler_live hB h
    obtain ⟨hd', rfl, hsame⟩ := hdone.live
    exact ⟨congrArg some hsame, hr ha⟩
  · obtain ⟨-, rfl, -⟩ | ⟨rfl, hr, -⟩ := handler_other (fun hd hs => hlive ⟨hd, hs⟩) h
    · cases ha
    · exact ⟨rfl, hr ha⟩

theorem view_of_failed {z : PipeSession μ} {sender : Tid} {tag : ℕ} {a : Call} (hB : B.IsQueue)
    (hp : Protocol x) (ha : a.IsTransfer) (hcall : Rollback.exec (pipeServer B) x (.call sender tag a) = some y)
    (hown : ownRollback (α := Call) (β := List End) y (.reply false))
    (hreply : Rollback.exec (pipeServer B) y (.reply false) = some z) : view B z = view B x := by
  have hpy := hp.exec hcall
  obtain ⟨hcur, w, srv, e, out, hw, hh, rfl⟩ := exec_call hcall
  obtain ⟨hset, hc, -, -, -⟩ := syncConfirm_settle hw
  obtain ⟨hpw, -, -⟩ := hp.syncConfirm hcur hw
  obtain ⟨hcont, hrb⟩ := handler_transfer hB ha hh
  cases out with
  | none => cases hreply
  | some o =>
    obtain ⟨-, hcz, hsrv, -⟩ := reply_failed hpy rfl hreply
    -- a rollback function that is in the record is of an earlier call
    have hkept : z.srv = srv := by
      rcases hsrv with hsrv | ⟨-, hr, hmatch⟩
      · exact hsrv
      · have hwr : w.ctx.r = some .pipe := by simpa [enter_r, hrb] using hr
        have hlt : w.setterR < w.serial := hpw.setterR (by rw [hwr]; rfl)
        rcases hown _ rfl with hnone | hself | hno
        · rw [hr] at hnone
          cases hnone
        · have hser : w.setterR = w.serial := by simpa [Session.enter, hrb] using hself
          omega
        · exact absurd hmatch hno
    calc view B z = z.srv.contents B := by rw [view, hcz]; rfl
      _ = w.srv.contents B := by rw [hkept, hcont]
      _ = view B x := by rw [view, hset]; rfl

/-- **The pipe is first in, first out**, over every order of calls by any clients, replies that go
    out or fail, and exits; and a read or write whose reply fails leaves the queue unchanged, but
    where an earlier call's rollback is run for it. -/
theorem pipe_fifo {ms : List PipeMove} (hB : B.IsQueue)
    (h : Run (Rollback.exec (pipeServer B)) free (Session.init .absent) ms x) :
    PipeFifo B ownRollback x := by
  obtain ⟨hp, hf⟩ := Run.invariant (I := fun x => Protocol x ∧ Fifo B x)
    (fun _ _ _ _ he hi => ⟨hi.1.exec he, hi.2.exec hB hi.1 he⟩) h ⟨Protocol.init _, Fifo.init⟩
  exact ⟨hf.pre, fun _ _ _ _ _ ha hcall hown hreply => view_of_failed hB hp ha hcall hown hreply⟩

/-- A buffer of `PIPESZ` bytes that does not grow. -/
structure Fixed where
  start : ℕ
  queued : List UInt8
  space : List UInt8

def fixedBuf : Membuf Fixed where
  init := ⟨0, [], []⟩
  elems m := m.queued
  numSpace m := 4096 - m.start - m.queued.length
  prepareSpace m n :=
    let m := if m.queued.length = 0 then { m with start := 0 } else m
    if 4096 < m.start + m.queued.length + n ∧ m.queued.length * 2 ≤ 4096 then { m with start := 0 } else m
  putSpace m data := { m with space := data }
  added m n := { m with queued := m.queued ++ m.space.take n }
  consume m n := { m with start := m.start + n, queued := m.queued.drop n }

theorem fixedBuf_isQueue : fixedBuf.IsQueue where
  init := rfl
  prepareSpace m n := by
    simp only [fixedBuf]
    split <;> split <;> rfl
  putSpace _ _ _ := rfl
  added m data _ := by simp [fixedBuf]
  consume _ _ _ := rfl

def pipeClient : Tid := ⟨1, 1⟩
def writeClient : Tid := ⟨2, 1⟩
def readClient : Tid := ⟨3, 1⟩

def threeBytes : List PipeMove :=
  [.call pipeClient 0 .pipe, .reply true, .call writeClient 0 (.write (some .writer) [1, 2, 3] (-1) false),
    .reply true]

def twoRead : List PipeMove :=
  threeBytes ++ [.receiveFailed, .call readClient 0 (.read (some .reader) 2 (-1) false), .reply false,
    .call readClient 0 (.read (some .reader) 2 (-1) false), .reply true]

theorem pipe_fifo_twoRead : ∃ x : PipeSession Fixed,
    Run (Rollback.exec (pipeServer fixedBuf)) free (Session.init .absent) twoRead x ∧
      accepted x.log = [1, 2, 3] ∧ returned x.log = [1, 2] ∧ view fixedBuf x = some [3] ∧
      PipeFifo fixedBuf ownRollback x := by
  obtain ⟨x, hrun, hx⟩ := Run.exists_of_evalRun (Rollback.exec (pipeServer fixedBuf)) free
    (Session.init .absent) twoRead (fun x => (accepted x.log, returned x.log, view fixedBuf x))
    ([1, 2, 3], [1, 2], some [3]) (by decide +kernel)
  simp only [Prod.mk.injEq] at hx
  exact ⟨x, hrun, hx.1, hx.2.1, hx.2.2, pipe_fifo fixedBuf_isQueue hrun⟩

/-- A read of the three bytes whose reply fails takes the pipe away: the rollback of the call that
    made it is still in the record. -/
theorem pipe_lost : ∃ x : PipeSession Fixed,
    Run (Rollback.exec (pipeServer fixedBuf)) free (Session.init .absent) threeBytes x ∧
      view fixedBuf x = some [1, 2, 3] ∧ ¬ PipeFifo fixedBuf free x := by
  obtain ⟨x, hrun, hx⟩ := Run.exists_of_evalRun (Rollback.exec (pipeServer fixedBuf)) free
    (Session.init .absent) threeBytes
    (fun x => (view fixedBuf x, (evalRun (Rollback.exec (pipeServer fixedBuf)) free x
      [.call readClient 0 (.read (some .reader) 3 (-1) false), .reply false]).map (view fixedBuf)))
    (some [1, 2, 3], some none) (by decide +kernel)
  simp only [Prod.mk.injEq] at hx
  refine ⟨x, hrun, hx.1, fun h => ?_⟩
  obtain ⟨z, hz, hview⟩ := Option.map_eq_some_iff.mp hx.2
  cases Run.of_evalRun hz with
  | cons _ hcall hrest =>
    cases hrest with
    | cons _ hreply hnil =>
      cases hnil
      have hsame := h.unchanged readClient 0 (.read (some .reader) 3 (-1) false) _ _ trivial hcall trivial hreply
      rw [hview, hx.1] at hsame
      cases hsame

end Sneks.Pipe

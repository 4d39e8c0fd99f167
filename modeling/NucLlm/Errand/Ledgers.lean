import NucLlm.Lib.Books
import NucLlm.Lib.Lists
import NucLlm.Errand.Turns
import Mathlib.Algebra.Order.Ring.Rat

/-!
# What the ledgers hold

An auditor who reads the log enters every attempt and every wait in the books of
the flow it was made in.  Every ledger, open or closed, holds what the books say
of its flow and of the flows called in it, and nothing else.
-/

namespace NucLlm.Errand

open Exec Books NucLlm.Lists

/-- What is charged: an attempt on a lane, or the wait for the next one. -/
inductive Charge where
  | attempt (lane : String) (seconds : ℚ) (tokensIn tokensOut : ℤ)
  | wait (seconds : ℚ)

namespace Charge

def seconds : Charge → ℚ
  | attempt _ seconds _ _ => seconds
  | wait seconds => seconds

def tokensIn : Charge → ℤ
  | attempt _ _ tokensIn _ => tokensIn
  | wait _ => 0

def tokensOut : Charge → ℤ
  | attempt _ _ _ tokensOut => tokensOut
  | wait _ => 0

def lane : Charge → Option String
  | attempt lane _ _ _ => some lane
  | wait _ => none

/-- `spend` of the charge on one ledger. -/
def apply : Charge → Ledger → Ledger
  | attempt lane seconds tokensIn tokensOut, l => l.spend seconds (some lane) tokensIn tokensOut
  | wait seconds, l => l.spend seconds none 0 0

end Charge

/-! ## What a ledger covers -/

/-- The charges for attempts on a lane. -/
def onLane (lane : String) (cs : List Charge) : List Charge :=
  cs.filter fun c ↦ c.lane = some lane

/-- What the charges come to on a lane. -/
def laneTotal (cs : List Charge) (lane : String) : LaneRow where
  lane := lane
  calls := (onLane lane cs).length
  seconds := ((onLane lane cs).map Charge.seconds).sum
  tokensIn := ((onLane lane cs).map Charge.tokensIn).sum
  tokensOut := ((onLane lane cs).map Charge.tokensOut).sum

/-- The lanes in the order of their first attempts. -/
def lanesOf (cs : List Charge) : List String := addNew [] (cs.filterMap Charge.lane)

/-- The ledger holds the charges, and its rows hold them lane by lane. -/
structure Ledger.Covers (l : Ledger) (cs : List Charge) : Prop where
  seconds : l.spentS = (cs.map Charge.seconds).sum
  tokensIn : l.tokensIn = (cs.map Charge.tokensIn).sum
  tokensOut : l.tokensOut = (cs.map Charge.tokensOut).sum
  perLane : l.perLane = (lanesOf cs).map (laneTotal cs)
  tokensInLanes : l.tokensIn = (l.perLane.map LaneRow.tokensIn).sum
  tokensOutLanes : l.tokensOut = (l.perLane.map LaneRow.tokensOut).sum

namespace Ledger

theorem addRow_tokensIn (seconds : ℚ) (lane : String) (i o : ℤ) (rows : List LaneRow) :
    ((addRow seconds lane i o rows).map LaneRow.tokensIn).sum =
      (rows.map LaneRow.tokensIn).sum + i := by
  induction rows with
  | nil => simp [addRow]
  | cons row rows ih =>
      unfold addRow
      split
      · simp only [List.map_cons, List.sum_cons]
        omega
      · simp only [List.map_cons, List.sum_cons, ih]
        omega

theorem addRow_tokensOut (seconds : ℚ) (lane : String) (i o : ℤ) (rows : List LaneRow) :
    ((addRow seconds lane i o rows).map LaneRow.tokensOut).sum =
      (rows.map LaneRow.tokensOut).sum + o := by
  induction rows with
  | nil => simp [addRow]
  | cons row rows ih =>
      unfold addRow
      split
      · simp only [List.map_cons, List.sum_cons]
        omega
      · simp only [List.map_cons, List.sum_cons, ih]
        omega

theorem onLane_concat (lane : String) (cs : List Charge) (c : Charge) :
    onLane lane (cs ++ [c]) = onLane lane cs ++ if c.lane = some lane then [c] else [] := by
  unfold onLane
  rw [List.filter_append]
  by_cases h : c.lane = some lane <;> simp [h]

theorem laneTotal_other {lane : String} {cs : List Charge} {c : Charge} (h : c.lane ≠ some lane) :
    laneTotal (cs ++ [c]) lane = laneTotal cs lane := by
  simp [laneTotal, onLane_concat, h]

theorem laneTotal_attempt (lane : String) (seconds : ℚ) (i o : ℤ) (cs : List Charge) :
    laneTotal (cs ++ [.attempt lane seconds i o]) lane =
      ⟨lane, (laneTotal cs lane).calls + 1, (laneTotal cs lane).seconds + seconds,
        (laneTotal cs lane).tokensIn + i, (laneTotal cs lane).tokensOut + o⟩ := by
  simp [laneTotal, onLane_concat, Charge.lane, Charge.seconds, Charge.tokensIn, Charge.tokensOut]

theorem laneTotal_new {lane : String} {cs : List Charge} (h : lane ∉ lanesOf cs) :
    laneTotal cs lane = ⟨lane, 0, 0, 0, 0⟩ := by
  have hnone : onLane lane cs = [] := by
    apply List.filter_eq_nil_iff.mpr
    intro c hc hlane
    apply h
    refine mem_addNew.mpr (.inr (List.mem_filterMap.mpr ⟨c, hc, ?_⟩))
    simpa using hlane
  simp [laneTotal, hnone]

/-- A row is added to, or a row is begun. -/
theorem addRow_totals {lane : String} {seconds : ℚ} {i o : ℤ} {cs : List Charge}
    {lanes : List String} (hnodup : lanes.Nodup)
    (hnew : lane ∉ lanes → laneTotal cs lane = ⟨lane, 0, 0, 0, 0⟩) :
    addRow seconds lane i o (lanes.map (laneTotal cs)) =
      (addNew lanes [lane]).map (laneTotal (cs ++ [.attempt lane seconds i o])) := by
  have hother : ∀ m, m ≠ lane →
      laneTotal (cs ++ [.attempt lane seconds i o]) m = laneTotal cs m := by
    intro m hm
    apply laneTotal_other
    simpa [Charge.lane] using Ne.symm hm
  induction lanes with
  | nil =>
      have hzero := hnew List.not_mem_nil
      simp [addNew, addRow, laneTotal_attempt, hzero]
  | cons l lanes ih =>
      obtain ⟨hl, hnodup⟩ := List.nodup_cons.mp hnodup
      by_cases hlane : l = lane
      · subst hlane
        have hrest : lanes.map (laneTotal (cs ++ [.attempt l seconds i o])) =
            lanes.map (laneTotal cs) := by
          apply List.map_congr_left
          intro m hm
          apply hother
          rintro rfl
          exact hl hm
        have hhead : (laneTotal cs l).lane = l := rfl
        simp [addNew, addRow, laneTotal_attempt, hrest, hhead]
      · have hhead : (laneTotal cs l).lane ≠ lane := hlane
        have htail := ih hnodup fun hlanes ↦ hnew fun hmem ↦ by
          rcases List.mem_cons.mp hmem with rfl | hmem
          · exact hlane rfl
          · exact hlanes hmem
        have hadd : addNew (l :: lanes) [lane] = l :: addNew lanes [lane] := by
          by_cases hmem : lane ∈ lanes
          · simp [addNew, hmem]
          · simp [addNew, hmem, Ne.symm hlane]
        rw [List.map_cons, addRow, if_neg hhead, hadd, List.map_cons, hother l hlane, htail]

theorem covers_fresh (name : Option String) (limitS : Option ℚ) (limitTokens : Option ℕ) :
    Covers { name := name, limitS := limitS, limitTokens := limitTokens } [] := by
  constructor <;> rfl

theorem lanesOf_concat (cs : List Charge) (c : Charge) :
    lanesOf (cs ++ [c]) = addNew (lanesOf cs) c.lane.toList := by
  unfold lanesOf
  rw [List.filterMap_append, addNew_append]
  cases h : c.lane <;> simp [h]

/-- What is spent is covered as a further charge. -/
theorem Covers.apply (c : Charge) (l : Ledger) (cs : List Charge) (h : l.Covers cs) :
    (c.apply l).Covers (cs ++ [c]) := by
  cases c with
  | attempt lane seconds i o =>
      have hrows : addRow seconds lane i o l.perLane =
          (addNew (lanesOf cs) [lane]).map (laneTotal (cs ++ [.attempt lane seconds i o])) := by
        rw [h.perLane]
        exact addRow_totals (addNew_nodup List.nodup_nil) laneTotal_new
      constructor
      · simp [Charge.apply, spend, h.seconds, Charge.seconds]
      · simp [Charge.apply, spend, h.tokensIn, Charge.tokensIn]
      · simp [Charge.apply, spend, h.tokensOut, Charge.tokensOut]
      · rw [lanesOf_concat]
        exact hrows
      · change l.tokensIn + i = ((addRow seconds lane i o l.perLane).map _).sum
        rw [addRow_tokensIn, ← h.tokensInLanes]
      · change l.tokensOut + o = ((addRow seconds lane i o l.perLane).map _).sum
        rw [addRow_tokensOut, ← h.tokensOutLanes]
  | wait seconds =>
      have hrows : l.perLane = (lanesOf (cs ++ [.wait seconds])).map
          (laneTotal (cs ++ [.wait seconds])) := by
        rw [lanesOf_concat, h.perLane]
        apply List.map_congr_left
        intro lane _
        exact (laneTotal_other (by simp [Charge.lane])).symm
      constructor
      · simp [Charge.apply, spend, h.seconds, Charge.seconds]
      · simp [Charge.apply, spend, h.tokensIn, Charge.tokensIn]
      · simp [Charge.apply, spend, h.tokensOut, Charge.tokensOut]
      · exact hrows
      · change l.tokensIn + 0 = (l.perLane.map _).sum
        rw [Int.add_zero, ← h.tokensInLanes]
      · change l.tokensOut + 0 = (l.perLane.map _).sum
        rw [Int.add_zero, ← h.tokensOutLanes]

theorem Covers.counted {l : Ledger} {cs : List Charge} (h : l.Covers cs) (calls : ℕ) :
    Covers { l with calls := calls } cs :=
  ⟨h.seconds, h.tokensIn, h.tokensOut, h.perLane, h.tokensInLanes, h.tokensOutLanes⟩

end Ledger

/-! ## The books of a log -/

/-- What an event of the log changes in the books. -/
def record (book : Book Ledger Charge) : Event → Book Ledger Charge
  | .called _ => []
  | .opened _ => book.opened
  | .closed l _ => book.closed l
  | .attempted _ lane seconds tokensIn tokensOut =>
      book.charge (.attempt lane seconds tokensIn tokensOut)
  | .waited _ seconds => book.charge (.wait seconds)
  | _ => book

def books (log : List Event) : Book Ledger Charge := log.foldl record []

@[simp] theorem books_concat (log : List Event) (ev : Event) :
    books (log ++ [ev]) = record (books log) ev := by
  simp [books]

/-- The open ledgers as an event shows them. -/
def Event.ledgers? : Event → Option (List Ledger)
  | .opened ledgers => some ledgers
  | .closed _ up => some up
  | .send _ _ _ _ _ _ _ ledgers => some ledgers
  | .spent _ ledgers => some ledgers
  | _ => none

/-- The ledgers balance with the books of the log, and each comes to its own charges and to the
ledgers inside it. -/
structure Accounted (ledgers : List Ledger) (log : List Event) : Prop where
  balanced : Balanced Ledger.Covers [] ledgers (books log)
  seconds : Included Ledger.spentS Charge.seconds 0 ledgers (books log)
  tokensIn : Included Ledger.tokensIn Charge.tokensIn 0 ledgers (books log)
  tokensOut : Included Ledger.tokensOut Charge.tokensOut 0 ledgers (books log)

theorem accounted_of_balanced {ledgers : List Ledger} {log : List Event}
    (h : Balanced Ledger.Covers [] ledgers (books log)) : Accounted ledgers log :=
  ⟨h, h.included fun _ _ hcovers ↦ hcovers.seconds,
    h.included fun _ _ hcovers ↦ hcovers.tokensIn,
    h.included fun _ _ hcovers ↦ hcovers.tokensOut⟩

/-- Wherever the log shows the ledgers, they balance with the books so far. -/
def Shown (log : List Event) : Prop :=
  ∀ before ev ledgers, before ++ [ev] <+: log → ledgers ∈ ev.ledgers? →
    Balanced Ledger.Covers [] ledgers (books (before ++ [ev]))

theorem Shown.concat {log : List Event} {e : Event} (h : Shown log)
    (he : ∀ ledgers ∈ e.ledgers?, Balanced Ledger.Covers [] ledgers (record (books log) e)) :
    Shown (log ++ [e]) := by
  intro before ev ledgers hprefix hledgers
  rcases List.prefix_concat_iff.mp hprefix with heq | hprefix
  · obtain ⟨rfl, rfl⟩ := List.append_inj' heq rfl |>.imp id List.singleton_injective.eq_iff.mp
    rw [books_concat]
    exact he ledgers hledgers
  · exact h before ev ledgers hprefix hledgers

/-! ## States that balance -/

structure Audited (s : St) : Prop where
  balanced : Balanced Ledger.Covers [] s.ledgers (books s.log)
  shown : Shown s.log

/-- The charge is in the books, and is still to be made to the ledgers. -/
structure Owed (c : Charge) (s : St) : Prop where
  balanced : Balanced Ledger.Covers [] (s.ledgers.map c.apply) (books s.log)
  shown : Shown s.log

theorem audited_unobserved : Unobserved Audited := by
  intro s s' h hlog _ hledgers
  constructor
  · rw [hlog, hledgers]
    exact h.balanced
  · rw [hlog]
    exact h.shown

/-- A step of the ledgers that the next event of the log records. -/
theorem Audited.step {s : St} (h : Audited s) (ledgers : List Ledger) {e : Event}
    (hbalanced : Balanced Ledger.Covers [] ledgers (record (books s.log) e))
    (hledgers : ∀ shown ∈ e.ledgers?, shown = ledgers) :
    Audited { s with ledgers := ledgers, log := s.log ++ [e] } := by
  constructor
  · rw [books_concat]
    exact hbalanced
  · apply h.shown.concat
    intro shown hshown
    rw [hledgers shown hshown]
    exact hbalanced

section Machine

variable {host : Host} {prog : Program}

/-- An event that changes nothing in the books and shows the ledgers as they are. -/
theorem note_audited {s : St} (h : Audited s) {e : Event}
    (hrecord : ∀ book, record book e = book) (hledgers : ∀ shown ∈ e.ledgers?, shown = s.ledgers) :
    Audited (note e s).2 := by
  apply h.step _ _ hledgers
  rw [hrecord]
  exact h.balanced

/-- What is noted of an attempt or a wait is owed by the ledgers. -/
theorem note_owed {s : St} (h : Audited s) {e : Event} {c : Charge}
    (hrecord : ∀ book, record book e = book.charge c) (hledgers : e.ledgers? = none) :
    Owed c (note e s).2 := by
  constructor
  · change Balanced Ledger.Covers [] (s.ledgers.map c.apply) (books (s.log ++ [e]))
    rw [books_concat, hrecord]
    exact h.balanced.charge Ledger.Covers.apply c
  · apply h.shown.concat
    intro shown hshown
    rw [hledgers] at hshown
    contradiction

/-- The spending that follows makes the charge. -/
theorem spend_audited {s : St} {c : Charge} (h : Owed c s) {seconds : ℚ} {lane : Option String}
    {tokensIn tokensOut : ℤ} (hc : c.apply = Ledger.spend seconds lane tokensIn tokensOut)
    (call : ℕ) : Audited (spend call seconds lane tokensIn tokensOut s).2 := by
  obtain ⟨hbalanced, hshown⟩ := h
  rw [hc] at hbalanced
  have hspent : Audited { s with
      ledgers := s.ledgers.map (Ledger.spend seconds lane tokensIn tokensOut) } :=
    ⟨hbalanced, hshown⟩
  apply hspent.step _ hbalanced
  rintro shown ⟨⟩
  rfl

theorem sendRequest_audited (c : Call) (spentHere : ℚ) :
    (sendRequest host c spentHere).Preserves Audited := by
  intro s h
  have hsent : Audited (note (c.sendEvent host spentHere s.ledgers) s).2 := by
    apply note_audited h (fun _ ↦ rfl)
    rintro shown ⟨⟩
    rfl
  unfold Ensures
  simp only [sendRequest, wp_bind, wp_get, note, wp_modify]
  split
  · exact ⟨hsent.balanced, hsent.shown⟩
  · exact ⟨hsent.balanced, hsent.shown⟩

theorem attemptSeconds_audited (c : Call) (t₀ : ℚ) :
    (attemptSeconds host c t₀).Preserves Audited := by
  unfold attemptSeconds
  split
  · exact preserves_pure _ _
  · exact (readClock_preserves host audited_unobserved).bind fun _ ↦ preserves_pure _ _

theorem failed_audited (id : ℕ) (retryable : Bool) :
    (note (.failed id retryable)).Preserves Audited :=
  fun _ h ↦ note_audited h (fun _ ↦ rfl) nofun

theorem refused_audited (id : ℕ) : (note (.refused id)).Preserves Audited :=
  fun _ h ↦ note_audited h (fun _ ↦ rfl) nofun

/-- An attempt, or a wait, is noted and charged. -/
theorem charge_audited {e : Event} {c : Charge} {seconds : ℚ} {lane : Option String}
    {tokensIn tokensOut : ℤ} (hrecord : ∀ book, record book e = book.charge c)
    (hledgers : e.ledgers? = none)
    (hc : c.apply = Ledger.spend seconds lane tokensIn tokensOut) (call : ℕ) {α : Type}
    {f : Unit → M α} (hf : ∀ u, (f u).Preserves Audited) :
    (note e >>= fun _ ↦ spend call seconds lane tokensIn tokensOut >>= f).Preserves Audited := by
  intro s h
  refine wp_bind_of (P := fun _ ↦ Owed c) (note_owed h hrecord hledgers) fun _ s h ↦ ?_
  exact wp_bind_of (P := fun _ ↦ Audited) (spend_audited h hc call) fun u s h ↦ hf u s h

theorem attempts_audited (c : Call) : ∀ (rem n : ℕ) (spentBefore : ℚ) (recs : List Json),
    (attempts host c rem n spentBefore recs).Preserves Audited := by
  intro rem
  induction rem with
  | zero => exact fun n spentBefore recs ↦ preserves_fail _ _
  | succ rem ih =>
      intro n spentBefore recs
      unfold attempts
      refine (readClock_preserves host audited_unobserved).bind fun t₀ ↦ ?_
      refine (sendRequest_audited c spentBefore).bind fun result ↦ ?_
      refine (attemptSeconds_audited c t₀).bind fun seconds ↦ ?_
      refine (judge_preserves host c result).bind fun a ↦ ?_
      refine charge_audited (c := .attempt c.lane.name seconds a.tokensIn a.tokensOut)
        (fun _ ↦ rfl) rfl rfl c.id fun _ ↦ ?_
      cases a.outcome with
      | ok value => exact preserves_pure _ _
      | error failure =>
          obtain ⟨msg, retryable⟩ := failure
          refine (failed_audited c.id retryable).bind fun _ ↦ ?_
          split
          · exact preserves_pure _ _
          · refine (toFloat_preserves _).bind fun factor ↦ ?_
            refine (readRng_preserves host audited_unobserved).bind fun r ↦ ?_
            dsimp only
            split
            · exact (refused_audited c.id).bind fun _ ↦ preserves_pure _ _
            · refine (sleepFor_preserves host _).bind fun _ ↦ ?_
              exact charge_audited (c := .wait _) (fun _ ↦ rfl) rfl rfl c.id fun _ ↦ ih _ _ _

theorem openCall_audited (t : Task) : (openCall t).Preserves Audited := by
  intro s h
  have hcounted : Audited { s with
      taskCalls := s.taskCalls + 1
      ledgers := s.ledgers.modifyHead fun l ↦ { l with calls := l.calls + 1 } } :=
    ⟨h.balanced.amend fun _ _ hcovers ↦ hcovers.counted _, h.shown⟩
  exact note_audited hcounted (e := .begin (s.taskCalls + 1) t.retry) (fun _ ↦ rfl) nofun

theorem task_audited (t : Task) (args : List Val) (line : ℕ) :
    (task host prog t args line).Preserves Audited := by
  refine (preserves_ofOption _ _ _).bind fun lane ↦ ?_
  dsimp only
  split
  · exact (preserves_ofOption _ _ _).bind fun param ↦ preserves_pure _ _
  · refine (messages_preserves host t _).bind ?_
    rintro ⟨msgs, promptTokens⟩
    refine (readClock_preserves host audited_unobserved).bind fun now ↦ ?_
    refine (preserves_get _).bind fun s₀ ↦ (toFloat_preserves _).bind fun _ ↦ ?_
    refine (openCall_audited t).bind fun id ↦ (taskBudget_preserves prog t).bind fun budget ↦ ?_
    refine (preserves_get _).bind fun s₁ ↦ ?_
    dsimp only
    split
    · exact (refused_audited id).bind fun _ ↦ preserves_pure _ _
    · have hwarm : (Exec.modify fun s : St ↦
          { s with laneLastCall := (lane.name, now) :: s.laneLastCall } : M Unit).Preserves
            Audited :=
        fun s h ↦ audited_unobserved s _ h rfl rfl rfl
      exact hwarm.bind fun _ ↦ attempts_audited _ _ _ _ _

theorem opened_audited {s : St} (h : Audited s) {l : Ledger} (hl : l.Covers []) :
    Audited (pushLedger l s).2 := by
  apply h.step _ (e := .opened (l :: s.ledgers)) (h.balanced.opened hl)
  rintro shown ⟨⟩
  rfl

theorem ledgerFor_audited (name : Option String) (s : St) (h : Audited s) :
    (ledgerFor prog name).wp (fun l s' ↦ Audited (pushLedger l s').2) (fun _ ↦ Audited) s := by
  cases name with
  | none => exact opened_audited h (Ledger.covers_fresh _ _ _)
  | some name =>
      simp only [ledgerFor, wp_bind, wp_ofOption, wp_pure]
      exact ⟨fun _ ↦ h, fun b _ ↦ opened_audited h (Ledger.covers_fresh _ _ _)⟩

theorem popLedger_audited : popLedger.Preserves Audited := by
  intro s h
  unfold popLedger Ensures
  rw [wp_bind, wp_get]
  cases hs : s.ledgers with
  | nil => exact h
  | cons l up =>
      have hbalanced := h.balanced
      rw [hs] at hbalanced
      have hclosed := h.step s.ledgers.tail (e := .closed l up)
        (by rw [hs]; exact hbalanced.closed) (by rw [hs]; rintro shown ⟨⟩; rfl)
      exact hclosed

theorem audited_carried : Carried host prog Audited where
  unobserved := audited_unobserved
  init := ⟨trivial, by simp [Shown, St.init]⟩
  task := task_audited
  opened := ledgerFor_audited
  closed := popLedger_audited
  called := fun s flow h ↦ h.step [] (e := .called flow) trivial nofun

end Machine

/-- Wherever a session gets to, the ledgers hold the attempts and the waits of its log: those
that are open at the end, those the log shows on the way, and those closed before.  The log has
an attempt for whatever is sent and answered, and a wait before whatever is sent again. -/
theorem ledgers_balance (host : Host) (prog : Program)
    (runs : List (ℕ × String × List (String × Arg))) :
    Accounted (session host prog runs).ledgers (session host prog runs).log ∧
      (∀ before ev ledgers, before ++ [ev] <+: (session host prog runs).log →
        ledgers ∈ ev.ledgers? → Accounted ledgers (before ++ [ev])) ∧
      Told host (session host prog runs).log := by
  have h : Audited (session host prog runs) := audited_carried.session runs
  have htold : Told host (session host prog runs).log := told_carried.session runs
  refine ⟨accounted_of_balanced h.balanced, ?_, htold⟩
  intro before ev ledgers hprefix hledgers
  exact accounted_of_balanced (h.shown before ev ledgers hprefix hledgers)

end NucLlm.Errand

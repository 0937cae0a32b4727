import PointsTo.Proofs.Solver.Reached
import Mathlib.Data.List.Nodup

/-!
# Each ticket is answered once

Who holds a ticket for a fact is told when the fact is reached with an empty field stack. For that
the fact has to be asked for, to get into some context, and to get a transition to the seed, in any
order, and the same ticket may be asked for again or for several facts. At rest the answer was given
if and only if all three have happened (`Resting.witnessed_iff`), and since the solver remembers its
announcements it was given once (`Resting.countP_answers`). So whoever takes the events out of the
solver gets one answer for each ticket with a fact that is reached like that, and none for the other
tickets (`countP_answers_serveAll`).
-/

namespace PointsTo

/-- Whether the event is the answer to a ticket. -/
def Event.answers (ticket : Nat) : Event → Bool
  | announced (.witnessed ticket' _) => ticket' = ticket
  | _ => false

/-- The tickets that are requested, each with its fact. -/
def Request.tickets : Request → List (Fact × Nat)
  | change c => c.tickets
  | drainEvents | drainNotices => []

namespace Solver

variable {s : Solver}

/-- Whether one of the facts of a ticket is reached with an empty field stack. -/
def honours (s : Solver) (requested : List (Fact × Nat)) (ticket : Nat) : Bool :=
  requested.any fun (f, ticket') => ticket' = ticket && s.reachesWithEmptyStack f

theorem honours_iff {requested : List (Fact × Nat)} {ticket : Nat} :
    s.honours requested ticket ↔ ∃ f, (f, ticket) ∈ requested ∧ s.reachesWithEmptyStack f := by
  simp only [honours, List.any_eq_true, Bool.and_eq_true, decide_eq_true_eq, Prod.exists]
  constructor
  · rintro ⟨f, _, asked, rfl, reaches⟩
    exact ⟨f, asked, reaches⟩
  · exact fun ⟨f, asked, reaches⟩ => ⟨f, ticket, asked, rfl, reaches⟩

/-! ## Answers -/

/-- The answers are among the announcements. -/
theorem Told.countP_answers (h : s.Told) (ticket : Nat) : s.events.countP (·.answers ticket) =
    s.announced.toList.countP fun a => (Event.announced a).answers ticket := by
  rw [← h.announced, List.countP_filterMap]
  refine List.countP_congr fun event _ => ?_
  cases event <;> rfl

/-- At rest, a ticket was answered once if one of its facts is reached with an empty field stack, and
not at all otherwise. -/
theorem Resting.countP_answers (h : s.Resting) (ticket : Nat) :
    s.events.countP (·.answers ticket) = if s.honours s.tickets ticket then 1 else 0 := by
  -- a solver answers in the name of its seed, so there is one answer that it can give
  have answer : ∀ a ∈ s.announced.toList,
      (Event.announced a).answers ticket ↔ (a == .witnessed ticket s.seed) := by
    intro a ha
    cases a with
    | witnessed ticket' seed =>
      obtain ⟨rfl, -⟩ := h.witnessed_iff.1 (OrderedSet.mem_toList.1 ha)
      simp [Event.answers]
    | _ => simp [Event.answers]
  have given : .witnessed ticket s.seed ∈ s.announced.toList ↔ s.honours s.tickets ticket := by
    rw [OrderedSet.mem_toList, h.witnessed_iff, honours_iff]
    exact ⟨And.right, fun asked => ⟨rfl, asked⟩⟩
  calc s.events.countP (·.answers ticket)
      = s.announced.toList.count (.witnessed ticket s.seed) := by
        rw [h.told.countP_answers, List.countP_congr answer]
        rfl
    _ = if .witnessed ticket s.seed ∈ s.announced.toList then 1 else 0 :=
        (OrderedSet.nodup_toList _).count
    _ = if s.honours s.tickets ticket then 1 else 0 := by simp only [given]

/-! ## Requests -/

/-- The tickets of a solver are those that were requested. -/
theorem Resting.mem_tickets_serve (h : s.Resting) (request : Request) {e : Fact × Nat} :
    e ∈ (s.serve request).2.tickets ↔ e ∈ s.tickets ∨ e ∈ request.tickets := by
  cases request with
  | change c =>
    have alters := h.apply c
    have requested : e ∈ c.tickets → e ∈ (c.apply s).tickets := by
      simpa using alters.requested e
    have only : e ∈ (c.apply s).tickets → e ∈ s.tickets ∨ e ∈ c.tickets := by
      simpa using alters.tickets e
    exact ⟨only, (·.elim (alters.ticket e) requested)⟩
  | drainEvents | drainNotices => exact (or_iff_left List.not_mem_nil).symm

theorem Resting.mem_tickets_serveAll (h : s.Resting) (requests : List Request) {e : Fact × Nat} :
    e ∈ (s.serveAll requests).2.tickets ↔
      e ∈ s.tickets ∨ e ∈ requests.flatMap (·.tickets) := by
  induction requests generalizing s with
  | nil => exact (or_iff_left List.not_mem_nil).symm
  | cons request requests ih =>
    rw [List.flatMap_cons, List.mem_append, ← or_assoc, ← h.mem_tickets_serve request]
    exact ih (h.serve request).resting

/-- Whatever a solver is asked for, and in whichever order a fact is asked for, gets into a context
and gets a transition to the seed, the events so far have one answer for each ticket that was
requested for a fact that is reached with an empty field stack, and none for any other ticket. -/
theorem countP_answers_serveAll (direction : Direction) (graph : Supergraph) (seed : Fact)
    (requests : List Request) (ticket : Nat) :
    let served := (create direction graph seed).serveAll requests
    let s := served.2
    (served.1 ++ s.outbox.pending).countP (·.answers ticket) =
      if s.honours (requests.flatMap (·.tickets)) ticket then 1 else 0 := by
  intro served s
  have fresh := create_fresh direction graph seed
  have serves := fresh.resting.serveAll requests
  have requested {e : Fact × Nat} : e ∈ s.tickets ↔ e ∈ requests.flatMap (·.tickets) := by
    rw [fresh.resting.mem_tickets_serveAll requests, fresh.tickets]
    exact or_iff_right List.not_mem_nil
  have honours : s.honours s.tickets ticket = s.honours (requests.flatMap (·.tickets)) ticket := by
    rw [Bool.eq_iff_iff, honours_iff, honours_iff]
    simp only [requested]
  rw [serves.append_pending fresh.taken, serves.resting.countP_answers ticket, honours]

end Solver

end PointsTo

import Mathlib.Data.List.Nodup
import PointsTo.CommandLine.Session
import PointsTo.Proofs.Source.Writing

/-!
# Labels and the points they stand for

A label leads to a point (`Program.point?`), and a point is described by its label
(`Program.describe`). The one way goes through the table of labels by name and the other by position,
from the end of the table. That the two are inverse is a matter of how the table is made: labels are
put in at growing positions (`Body.pairwise_placed`), and no label that is in it already, so that labels
and positions determine each other (`Body.labelOf?_eq_some_iff`). What a query names is therefore
printed as it was written (`Program.labels_round_trip`).
-/

namespace PointsTo

namespace Body

variable {method : MethodName} {parameters : List Var} {lines : List Line} {label : String}
  {i t : Nat} {b : Body}

/-! ## Positions -/

/-- Labels are put in the table at growing positions. -/
theorem pairwise_placed : (placed i lines).Pairwise fun e e' => e.2 < e'.2 := by
  induction lines generalizing i with
  | nil => exact .nil
  | cons line rest ih =>
    rw [placed, List.pairwise_append]
    refine ⟨?_, ih, ?_⟩
    · cases line.label <;> simp
    · intro e he e' he'
      obtain ⟨l, -, rfl⟩ := Option.map_eq_some_iff.1 (Option.mem_toList.1 he)
      obtain ⟨k, line', -, -, ht⟩ := mem_placed.1 he'
      show i < e'.2
      omega

/-- No position stands in the table twice. -/
theorem nodup_positions : ((placed i lines).map (·.2)).Nodup := by
  rw [List.nodup_iff_pairwise_ne, List.pairwise_map]
  exact pairwise_placed.imp Nat.ne_of_lt

/-- The table of a body: every label once, with its position. -/
theorem labels_of_ofLines (h : ofLines method parameters lines = .ok b) :
    b.labels = placed 0 (withEntry lines) ∧ (b.labels.map (·.1)).Nodup := by
  have spec := collectLabels_spec method lines 1 nodup_entry
  rw [(exists_table h).1] at spec
  exact spec

/-! ## By name and by position -/

/-- In a table that has every position once, searching for a position finds its entry. -/
theorem find?_eq_some_iff_of_nodup {labels : List (String × Nat)} {e : String × Nat}
    (nodup : (labels.map (·.2)).Nodup) :
    labels.find? (fun (_, j) => j = t) = some e ↔ e ∈ labels ∧ e.2 = t := by
  constructor
  · intro h
    exact ⟨List.mem_of_find?_eq_some h, by simpa using List.find?_some h⟩
  · rintro ⟨he, rfl⟩
    have found : (labels.find? fun (_, j) => j = e.2).isSome :=
      List.find?_isSome.2 ⟨e, he, decide_eq_true rfl⟩
    obtain ⟨e', h'⟩ := Option.isSome_iff_exists.1 found
    have same : e'.2 = e.2 := by simpa using List.find?_some h'
    rw [h', List.inj_on_of_nodup_map nodup (List.mem_of_find?_eq_some h') he same]

/-- A label belongs to a position exactly if it leads there. -/
theorem labelOf?_eq_some_iff (h : ofLines method parameters lines = .ok b) :
    b.labelOf? t = some label ↔ b.labelIndex? label = some t := by
  obtain ⟨table, nodup⟩ := labels_of_ofLines h
  have nodup' : (b.labels.reverse.map (·.2)).Nodup := by
    rw [List.map_reverse, List.nodup_reverse, table]
    exact nodup_positions
  rw [labelIndex?, lookup_eq_some_iff nodup, labelOf?, Option.map_eq_some_iff]
  constructor
  · rintro ⟨e, found, rfl⟩
    obtain ⟨he, rfl⟩ := (find?_eq_some_iff_of_nodup nodup').1 found
    exact List.mem_reverse.1 he
  · intro hm
    have found := (find?_eq_some_iff_of_nodup nodup').2 ⟨List.mem_reverse.2 hm, rfl⟩
    exact ⟨(label, t), found, rfl⟩

end Body

namespace Program

open CommandLine

variable {p : Program} {m : MethodName} {label : String} {s : Point}

/-! ## Points -/

theorem point?_eq_some_iff : p.point? m label = some s ↔
    ∃ b t, p.body? m = some b ∧ b.labelIndex? label = some t ∧ s = .ofIndex m t := by
  unfold point?
  cases p.body? m with
  | none => simp
  | some b => cases h : b.labelIndex? label <;> simp [h, eq_comm]

/-- The point that carries a label is described by the method and the label. -/
theorem describe_of_point? (made : ∀ b ∈ p.bodies, ∃ d : Draft, d.body = .ok b)
    (h : p.point? m label = some s) : p.describe s = s!"{m.text}:{label}" := by
  obtain ⟨b, t, hb, ht, rfl⟩ := point?_eq_some_iff.1 h
  obtain ⟨d, hd⟩ := made b (body?_eq_some hb).1
  have labelled : b.labelOf? t = some label := (Body.labelOf?_eq_some_iff hd).2 ht
  simp [describe, Point.ofIndex, hb, labelled]

/-- In a program that is made of methods which are made of lines, a label and the point that carries
it stand for each other, so that no two labels of a method stand for one point. Whatever text names a
query about a fact of the program, the query is written like the text and the fact is printed like it. -/
theorem labels_round_trip {bodies : List Body} (made : ∀ b ∈ bodies, ∃ d : Draft, d.body = .ok b)
    (h : ofBodies bodies = .ok p) :
    (∀ m label s, p.point? m label = some s → p.describe s = s!"{m.text}:{label}") ∧
    (∀ m label label' s, p.point? m label = some s → p.point? m label' = some s → label = label') ∧
    ∀ text spec fact, QuerySpec.ofText? text = some spec → spec.resolve? p = some fact →
      Session.describe p fact = text ∧ spec.text = text := by
  have made : ∀ b ∈ p.bodies, ∃ d : Draft, d.body = .ok b := fun b hb =>
    made b (mem_of_ofBodies h hb)
  refine ⟨fun m label s => describe_of_point? made, ?_, ?_⟩
  · intro m label other s hs hs'
    have same : s!"{m.text}:{label}" = s!"{m.text}:{other}" :=
      (describe_of_point? made hs).symm.trans (describe_of_point? made hs')
    exact (String.append_right_inj _).1 same
  · intro text spec fact read resolved
    have written : spec.text = text := QuerySpec.text_of_ofText?_eq_some read
    refine ⟨?_, written⟩
    obtain ⟨s, hs, rfl⟩ := Option.map_eq_some_iff.1 resolved
    rw [Session.describe, describe_of_point? made hs, ← written]
    rfl

/-- A method of a class, with a label that is jumped back to and a label at the end. -/
def labelledDraft : Draft :=
  let m : MethodName := ⟨"A.run"⟩
  ⟨m, [], [⟨some "L", .new ⟨"x", m⟩ ⟨"A"⟩, .next⟩, ⟨none, .nop, .branch "L"⟩,
    ⟨some "end", .nop, .next⟩]⟩

theorem labelledDraft_round_trip : ∃ b p, labelledDraft.body = .ok b ∧ ofBodies [b] = .ok p ∧
    (∀ label ∈ ["entry", "L", "end"], ∃ s, p.point? ⟨"A.run"⟩ label = some s ∧
      p.describe s = s!"A.run:{label}") ∧
    ∃ spec fact, QuerySpec.ofText? "A.run:end:x" = some spec ∧ spec.resolve? p = some fact ∧
      Session.describe p fact = "A.run:end:x" := by
  have made : (labelledDraft.body.toOption.any fun b => (ofBodies [b]).toOption.any fun p =>
      ["entry", "L", "end"].all fun label => (p.point? ⟨"A.run"⟩ label).isSome) = true := by
    decide +kernel
  obtain ⟨b, hb, made⟩ := exists_ok_of_any made
  obtain ⟨p, hp, led⟩ := exists_ok_of_any made
  obtain ⟨described, -, printed⟩ := labels_round_trip (List.forall_mem_singleton.2 ⟨_, hb⟩) hp
  have carried (label : String) (hl : label ∈ ["entry", "L", "end"]) :
      ∃ s, p.point? ⟨"A.run"⟩ label = some s :=
    Option.isSome_iff_exists.1 (List.all_eq_true.1 led label hl)
  refine ⟨b, p, hb, hp, ?_, ?_⟩
  · intro label hl
    obtain ⟨s, hs⟩ := carried label hl
    exact ⟨s, hs, described _ _ _ hs⟩
  · obtain ⟨s, hs⟩ := carried "end" (by decide)
    have read : QuerySpec.ofText? "A.run:end:x" = some ⟨"A.run", "end", "x"⟩ := by decide
    have resolved : QuerySpec.resolve? ⟨"A.run", "end", "x"⟩ p =
        some ⟨s, ⟨"x", ⟨"A.run"⟩⟩⟩ := by
      rw [QuerySpec.resolve?, hs]
      rfl
    exact ⟨_, _, read, resolved, (printed _ _ _ read resolved).1⟩

end Program

end PointsTo

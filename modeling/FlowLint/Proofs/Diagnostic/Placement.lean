import FlowLint.Format.Standard
import FlowLint.Proofs.Conformance.Anchors
import FlowLint.Proofs.Locate.Resolve

/-!
Where the violations of a document are shown. Each is said of a value that is there, or of a name
that an object lacks; so in a text that repeats no name the climb from its path is over at once, or
after the one step from the name to the object.
-/

namespace FlowLint

open Json Locate

/-- Where a violation is shown: at what is wrong, or at the object that lacks something. -/
def Violation.place (g : Violation) : Path :=
  if g.kind = .required then g.path.dropLast else g.path

/-- What is said of a value or of a name that it lacks is shown there. -/
theorem Nearest.eq_place {d : Document} {q : Path} {g : Violation}
    (anchors : d.tree.Anchors g.path g.kind) (nearest : Nearest d g.path q)
    (found : (d.entryAt? q).isSome) : q = g.place := by
  obtain ⟨path, kind⟩ := g
  rw [Violation.place]
  by_cases required : kind = .required
  · obtain ⟨ms, name, last, above, lacks⟩ := anchors.missing required
    obtain ⟨p, rfl⟩ := List.getLast?_eq_some_iff.1 last
    rw [List.dropLast_concat] at above
    rw [if_pos required, List.dropLast_concat]
    refine nearest.eq_above found (Document.isSome_entryAt?_iff.2 ⟨_, above⟩) ?_
    rw [Document.isSome_entryAt?_iff, at?_concat, above]
    exact mt exists_lookup_iff.1 lacks
  · rw [if_neg required]
    exact nearest.eq_self (Document.isSome_entryAt?_iff.2 (anchors.present required))

theorem anchored_documentViolations [Formats] (document : Json) :
    ∀ g ∈ documentViolations document, document.Anchors g.path g.kind := by
  intro g hg
  obtain ⟨q, path, anchors⟩ := anchored_violations document _ [] g hg
  rwa [path]

/-- Every violation of a document is said of a value in it or of a name that an object in it lacks.
    A text that repeats no name shows each at that value, or at that object. -/
theorem violations_placed [Formats] (document : Json) :
    (∀ g ∈ documentViolations document, document.Anchors g.path g.kind) ∧
      ∀ text, tree? text = .ok document → document.NoRepeats →
        parse? text = .ok document ∧ ∃ d : Document, d.text = text ∧ d.tree = document ∧
          ∀ g ∈ documentViolations document, ∃ e, Leads d g.place e ∧
            resolve text g.path = .ok (d.located g.place e) := by
  refine ⟨anchored_documentViolations document, fun text reads h => ?_⟩
  obtain ⟨d, rfl, rfl, hd⟩ := tree?_eq_ok_iff.1 reads
  have parses := parse?_of_tree? reads
  rw [h.settled_eq] at parses
  refine ⟨parses, d, rfl, rfl, fun g hg => ?_⟩
  obtain ⟨q, e, nearest, found, resolved⟩ := resolve_eq d g.path
  have here : (d.entryAt? q).isSome := by simp [found]
  obtain rfl := nearest.eq_place (anchored_documentViolations _ g hg) here
  exact ⟨e, leads_of_entryAt? hd found, resolved⟩

/-- A machine that starts at no state and has one that leads nowhere. -/
def lostMachine : String :=
  "\x7b\"StartAt\":\"B\",\"States\":\x7b\"A\":\x7b\"Type\":\"Pass\"\x7d\x7d\x7d"

/-- Its value. -/
def lostDocument : Json :=
  .object [("StartAt", .string "B"),
    ("States", .object [("A", .object [("Type", .string "Pass")])])]

theorem violations_placed_lostMachine :
    documentViolations lostDocument =
        [⟨[.key "StartAt"], .notOneOf ["A"]⟩,
         ⟨[.key "States", .key "A", .key "Next"], .required⟩] ∧
      tree? lostMachine.toList = .ok lostDocument ∧ lostDocument.NoRepeats ∧
        parse? lostMachine.toList = .ok lostDocument ∧
          ∃ d : Document, d.text = lostMachine.toList ∧ d.tree = lostDocument ∧
            ∀ g ∈ documentViolations lostDocument, ∃ e, Leads d g.place e ∧
              resolve lostMachine.toList g.path = .ok (d.located g.place e) := by
  have reads : tree? lostMachine.toList = .ok lostDocument := by decide +kernel
  have settled : lostDocument.settled = lostDocument := rfl
  have distinct : lostDocument.NoRepeats := settled ▸ noRepeats_settled lostDocument
  have placed := (violations_placed lostDocument).2 _ reads distinct
  exact ⟨by decide +kernel, reads, distinct, placed⟩

end FlowLint

import FlowLint.Diagnostic.Lint
import FlowLint.Format.Standard
import FlowLint.Proofs.Locate.Resolve
import Mathlib.Data.List.Forall2

/-!
What a lint says. Every violation of an accepted text is placed, so it becomes one diagnostic and
none stands for another; and where the text repeats no name on the way, a diagnostic shows the
value that is in violation.
-/

namespace FlowLint

open Json Locate

/-! ### Paths in words -/

/-- A name as it is, an index in decimal. -/
def Segment.shown : Segment → List Char
  | .key name => name.toList
  | .index i  => Nat.toDigits 10 i

/-- The steps with a point between each two. -/
def Path.dotted (p : Path) : List Char := ['.'].intercalate (p.map Segment.shown)

theorem Path.toList_text (p : Path) : p.text.toList = p.dotted := by
  have step (s : Segment) : s.text.toList = s.shown := by
    cases s with
    | key name => rfl
    | index i => exact Nat.toList_repr
  rw [text, String.toList_intercalate, List.map_map, dotted]
  exact congrArg (['.'].intercalate <| p.map ·) (funext step)

/-! ### Every violation is placed -/

/-- The diagnostic says of the violation what is wrong and where. -/
structure Reports (w : Violation) (g : Diagnostic) : Prop where
  kind     : g.kind = .structural
  severity : g.severity = .error
  code     : g.code = w.kind.code
  message  : g.message = w.message
  path     : g.path = some (.ofList w.path.dotted)
  line     : g.line.isSome
  column   : g.column.isSome

theorem reports_structural (w : Violation) (l : Location) : Reports w (.structural w l) := by
  have path : w.path.text = .ofList w.path.dotted := by
    rw [← w.path.toList_text, String.ofList_toList]
  exact ⟨rfl, rfl, rfl, rfl, congrArg some path, rfl, rfl⟩

/-- No violation has the code of a failed lint. -/
theorem ViolationKind.code_ne_internal (k : ViolationKind) : k.code ≠ "I001" := by
  cases k <;> simp [code]

/-- What stands in the second of two related lists has its counterpart in the first. -/
theorem exists_of_forall₂ {R : α → β → Prop} {as : List α} {bs : List β} (h : List.Forall₂ R as bs)
    {b : β} (hb : b ∈ bs) : ∃ a ∈ as, R a b := by
  induction h with
  | nil => cases hb
  | cons related _ ih =>
    rcases List.mem_cons.1 hb with rfl | hb
    · exact ⟨_, List.mem_cons_self, related⟩
    · obtain ⟨a, ha, related⟩ := ih hb
      exact ⟨a, List.mem_cons_of_mem _ ha, related⟩

theorem exists_reports {vs : List Violation} {gs : List Diagnostic}
    (h : List.Forall₂ Reports vs gs) {g : Diagnostic} (hg : g ∈ gs) : ∃ w, Reports w g := by
  obtain ⟨w, -, reports⟩ := exists_of_forall₂ h hg
  exact ⟨w, reports⟩

/-- Where nothing fails, a list of results is a result for each. -/
theorem mapM_eq_ok_of_forall {f : α → Except ε β} {xs : List α} (h : ∀ x ∈ xs, ∃ y, f x = .ok y) :
    ∃ ys, xs.mapM f = .ok ys ∧ List.Forall₂ (fun x y => f x = .ok y) xs ys := by
  induction xs with
  | nil => exact ⟨[], rfl, .nil⟩
  | cons x xs ih =>
    obtain ⟨y, hy⟩ := h x List.mem_cons_self
    obtain ⟨ys, hys, all⟩ := ih fun x' hx' => h x' (List.mem_cons_of_mem _ hx')
    refine ⟨y :: ys, ?_, .cons hy all⟩
    rw [List.mapM_cons, hy, hys]
    rfl

theorem placed_eq {text : List Char} {vs : List Violation}
    (h : ∀ w ∈ vs, ∃ l, resolve text w.path = .ok l) : ∃ gs, placed text vs = .ok gs ∧
      List.Forall₂ (fun w g => ∃ l, resolve text w.path = .ok l ∧ g = .structural w l) vs gs := by
  have located : ∀ w ∈ vs, ∃ g, (resolve text w.path).map (Diagnostic.structural w) = .ok g := by
    intro w hw
    obtain ⟨l, hl⟩ := h w hw
    exact ⟨_, by rw [hl]; rfl⟩
  obtain ⟨gs, hgs, all⟩ := mapM_eq_ok_of_forall located
  refine ⟨gs, hgs, all.imp fun w g hg => ?_⟩
  cases resolved : resolve text w.path with
  | error e =>
    rw [resolved] at hg
    cases hg
  | ok l =>
    rw [resolved] at hg
    cases hg
    exact ⟨l, rfl, rfl⟩

section

variable [Formats]

/-- What a lint of an accepted text is: each violation, in order, at the nearest entry. -/
theorem lint_document {source : String} {v : Json} (h : parse? source.toList = .ok v) :
    ∃ d : Document, d.text = source.toList ∧ d.tree.settled = v ∧
      List.Forall₂ (fun w g => ∃ q e, Nearest d w.path q ∧ Leads d q e ∧
        g = .structural w (d.located q e)) (documentViolations v) (lint source) := by
  obtain ⟨d, text, rfl, hd⟩ := exists_document h
  have resolved (w : Violation) : ∃ l, resolve source.toList w.path = .ok l := by
    obtain ⟨q, e, -, -, h⟩ := resolve_eq d w.path
    exact ⟨_, text ▸ h⟩
  obtain ⟨gs, hgs, all⟩ := placed_eq fun w (_ : w ∈ documentViolations d.tree.settled) => resolved w
  have linted : lint source = gs := by
    rw [lint, document?, h]
    simp only [Except.mapError, hgs]
  rw [linted]
  refine ⟨d, text, rfl, all.imp fun w g ⟨l, hl, hg⟩ => ?_⟩
  obtain ⟨q, e, nearest, found, h⟩ := resolve_eq d w.path
  rw [text, hl] at h
  cases h
  exact ⟨q, e, nearest, leads_of_entryAt? hd found, hg⟩

/-- A lint is never in want of a place: a rejected text gives the reader's one diagnostic, an
    accepted one gives each violation its own, in order. -/
theorem lint_reports (source : String) :
    (∀ g ∈ lint source, g.kind ≠ .internal ∧ g.code ≠ "I001") ∧
      match document? source.toList with
      | .error g => lint source = [g] ∧ g.kind = .malformed
      | .ok v    => List.Forall₂ Reports (documentViolations v) (lint source) := by
  cases accepted : parse? source.toList with
  | error e =>
    have rejected : document? source.toList =
        .error (.malformed source.toList e.cause.message e.position) := by
      rw [document?, accepted]
      rfl
    have linted : lint source = [.malformed source.toList e.cause.message e.position] := by
      rw [lint, rejected]
    rw [linted, rejected]
    refine ⟨fun g hg => ?_, rfl, rfl⟩
    rw [List.mem_singleton.1 hg]
    exact ⟨nofun, by simp [Diagnostic.malformed]⟩
  | ok v =>
    have read : document? source.toList = .ok v := by
      rw [document?, accepted]
      rfl
    obtain ⟨d, -, -, all⟩ := lint_document accepted
    have each : List.Forall₂ Reports (documentViolations v) (lint source) := by
      refine all.imp fun w g ⟨q, e, _, _, hg⟩ => ?_
      rw [hg]
      exact reports_structural w _
    rw [read]
    refine ⟨fun g hg => ?_, each⟩
    obtain ⟨w, reports⟩ := exists_reports each hg
    rw [reports.kind, reports.code]
    exact ⟨by decide, w.kind.code_ne_internal⟩

end

/-! ### What a diagnostic shows -/

/-- The entry shown is the one of the path, and reads as `x`, exactly if the value met first along
    the path settles to `x`. -/
theorem Nearest.shows_iff {d : Document} {p q : Path} {e : Entry} (nearest : Nearest d p q)
    (leads : Leads d q e) (x : Json) : (q = p ∧ parse? e.value.text = .ok x) ↔
      (d.tree.at? p).map settled = some x := by
  constructor
  · rintro ⟨rfl, parses⟩
    have same := leads.parses.symm.trans parses
    rw [leads.value, Option.map_some, Except.ok.inj same]
  · intro h
    obtain ⟨t, ht, rfl⟩ := Option.map_eq_some_iff.1 h
    obtain rfl := nearest.eq_self (Document.isSome_entryAt?_iff.2 ⟨t, ht⟩)
    rw [Option.some.inj (ht.symm.trans leads.value)]
    exact ⟨rfl, leads.parses⟩

/-- Without repeats that is always so. -/
theorem Nearest.shows_of_noRepeats {d : Document} {p q : Path} {e : Entry}
    (nearest : Nearest d p q) (leads : Leads d q e) (h : d.tree.NoRepeats) {x : Json}
    (hx : d.tree.settled.at? p = some x) : q = p ∧ parse? e.value.text = .ok x := by
  rw [nearest.shows_iff leads, h.at?_settled, hx]

/-- A diagnostic shows the entry nearest to the path of its violation. That is the value in
    violation exactly if of each name on the way the first value settles to what the last one
    does. -/
theorem lint_shows [Formats] {source : String} {v : Json} (h : parse? source.toList = .ok v) :
    ∃ d : Document, d.text = source.toList ∧ d.tree.settled = v ∧
      List.Forall₂ (fun w g => ∃ q e, Nearest d w.path q ∧ Leads d q e ∧
        g = .structural w (d.located q e) ∧ ∀ x, v.at? w.path = some x →
          ((q = w.path ∧ parse? e.value.text = .ok x) ↔
            (d.tree.at? w.path).map settled = some x)) (documentViolations v) (lint source) := by
  obtain ⟨d, text, tree, all⟩ := lint_document h
  refine ⟨d, text, tree, all.imp fun w g ⟨q, e, nearest, leads, hg⟩ => ?_⟩
  exact ⟨q, e, nearest, leads, hg, fun x _ => nearest.shows_iff leads x⟩

/-- A machine that says twice where it starts, the second time at no state. -/
def twoStarts : String :=
  "\x7b\"StartAt\":\"A\",\"StartAt\":\"B\"," ++
    "\"States\":\x7b\"A\":\x7b\"Type\":\"Succeed\"\x7d\x7d\x7d"

/-- Its value. -/
def secondStart : Json :=
  .object [("StartAt", .string "B"),
    ("States", .object [("A", .object [("Type", .string "Succeed")])])]

theorem parse?_twoStarts : parse? twoStarts.toList = .ok secondStart := by decide +kernel

theorem lint_shows_twoStarts :
    ∃ d : Document, d.text = twoStarts.toList ∧ d.tree.settled = secondStart ∧
      List.Forall₂ (fun w g => ∃ q e, Nearest d w.path q ∧ Leads d q e ∧
        g = .structural w (d.located q e) ∧ ∀ x, secondStart.at? w.path = some x →
          ((q = w.path ∧ parse? e.value.text = .ok x) ↔
            (d.tree.at? w.path).map settled = some x))
        (documentViolations secondStart) (lint twoStarts) :=
  lint_shows parse?_twoStarts

/-- The first start is shown, and it is the second that is in violation. -/
theorem lint_twoStarts_shows_first :
    documentViolations secondStart = [⟨[.key "StartAt"], .notOneOf ["A"]⟩] ∧
      secondStart.at? [.key "StartAt"] = some (.string "B") ∧
      (lint twoStarts).map Diagnostic.source = ["\"StartAt\":\"A\""] := by
  have violated : documentViolations secondStart = [⟨[.key "StartAt"], .notOneOf ["A"]⟩] := by
    decide +kernel
  have found : resolve twoStarts.toList [.key "StartAt"] =
      .ok ⟨⟨1, 2⟩, "\"StartAt\":\"A\"".toList⟩ := by decide +kernel
  refine ⟨violated, rfl, ?_⟩
  rw [lint, document?, parse?_twoStarts]
  simp only [Except.mapError, violated, placed]
  rw [List.mapM_cons, found]
  rfl

end FlowLint

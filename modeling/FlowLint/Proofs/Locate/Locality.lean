import FlowLint.Proofs.Locate.Nesting
import FlowLint.Proofs.Text.Bytes

/-!
How far the locator looks ahead. On the way to a value it reads what stands before that value and
the first character of it, so the same way leads to whatever else may stand there; and of what
follows the value it looks at one character at most, and at none unless the value is a scalar. A
span is therefore found in every text that starts with the same bytes up to its end.
-/

namespace FlowLint.Locate

open Json

variable {s t e : List Char} {p : Place} {step : Segment}

/-! ### Values on the way -/

/-- The text starts with what can start a value: no blank and no closing bracket. -/
def Opens (s : List Char) : Prop :=
  ∃ c t, s = c :: t ∧ ¬ Text.isAsciiBlank c ∧ ∀ k : Container, c ≠ k.close

theorem Opens.solid (h : Opens s) : Solid s := by
  obtain ⟨c, t, rfl, notBlank, -⟩ := h
  exact solid_cons notBlank t

theorem opens_quote (s : List Char) : Opens ('"' :: s) :=
  ⟨_, _, rfl, by decide, fun k => by cases k <;> decide⟩

theorem opens_opening (k : Container) (s : List Char) : Opens (k.opening :: s) :=
  ⟨_, _, rfl, by cases k <;> decide, fun j => by cases k <;> cases j <;> decide⟩

/-- Whatever is passed over as a value starts like one. -/
theorem Loose.opens {w : List Char} (h : Loose .value w) (r : List Char) : Opens (w ++ r) := by
  obtain ⟨c, t, rfl, notBlank, notClosing⟩ := h.exists_cons_value
  exact ⟨c, t ++ r, rfl, notBlank, notClosing⟩

/-- A value with the comma behind it. -/
theorem exists_of_comma (value : Leaves (skipValue s) e) (comma : skipSpace e = ',' :: t) :
    ∃ w b a, Loose .value w ∧ Blank b ∧ Blank a ∧ s = w ++ (b ++ ',' :: (a ++ skipSpace t)) := by
  obtain ⟨w, hw, rfl, -⟩ := loose_of_passes (p := .value) value
  obtain ⟨b, hb, before⟩ := exists_blank e
  obtain ⟨a, ha, after⟩ := exists_blank t
  refine ⟨w, b, a, hw, hb, ha, ?_⟩
  rw [← after, ← comma, ← before]

theorem skipSpace_comma {b : List Char} (hb : Blank b) (r : List Char) :
    skipSpace (b ++ ',' :: r) = ',' :: r :=
  skipSpace_append_of_solid hb (solid_cons (by decide) r)

theorem leaves_skipValue_comma {w b : List Char} (hw : Loose .value w) (hb : Blank b)
    (r : List Char) : Leaves (skipValue (w ++ (b ++ ',' :: r))) (b ++ ',' :: r) :=
  hw.passes (p := .value) _ fun _ _ => stops_append hb (by decide) r

/-! ### The way to a value -/

/-- The way leads from `s` to `p`, and to any value in the place of that at `p`. -/
def Local (way : List Char → Except Snag (Option Place)) (s : List Char) (p : Place) : Prop :=
  ∃ a l, s = a ++ (l ++ p.value) ∧ p.start = l ++ p.value ∧ ∀ v, Opens v →
    Opens (a ++ (l ++ v)) ∧ way (a ++ (l ++ v)) = .ok (some ⟨l ++ v, v⟩)

/-- Nothing is read on the way. -/
theorem local_here (s : List Char) : Local (fun s => .ok (some ⟨s, s⟩)) s ⟨s, s⟩ :=
  ⟨[], [], rfl, rfl, fun _ opens => ⟨opens, rfl⟩⟩

/-- On the way to a member only whole members are passed over, with the commas behind them, so the
    value at the end may be replaced. -/
theorem local_seekMember {name : String} (h : seekMember name s = .ok (some p)) :
    Local (seekMember name) s p := by
  induction s using seekMember.induct with
  | _ s ih =>
    obtain ⟨other, n, v, hn, hv, tail⟩ := cases_of_seekMember h
    obtain ⟨u, hu, read, text⟩ := yields_readName_iff.1 hn
    obtain ⟨-, b, a, hb, ha, text'⟩ := leaves_skipColon_iff.1 hv
    -- the literal and the colon, with whatever behind them
    have named (v : List Char) : Yields (readName ('"' :: (u ++ (b ++ ':' :: (a ++ v))))) other
        (b ++ ':' :: (a ++ v)) := yields_readName_iff.2 ⟨u, hu, read, rfl⟩
    have colon {v : List Char} (solid : Solid v) : Leaves (skipColon (b ++ ':' :: (a ++ v))) v :=
      leaves_skipColon_iff.2 ⟨solid, b, a, hb, ha, rfl⟩
    subst text'
    rcases tail with ⟨rfl, rfl⟩ | ⟨differs, e, t, he, comma, h⟩
    · refine ⟨[], '"' :: (u ++ (b ++ ':' :: a)), by simp [text], by simp [text], fun v opens => ?_⟩
      have found := seekMember_here (named v) (colon opens.solid)
      exact ⟨opens_quote _, by simpa using found⟩
    · obtain ⟨c, l, rest, start, way⟩ := ih ⟨_, hn.bound⟩ ⟨_, hv.bound⟩ ⟨e, he.bound⟩ t comma h
      obtain ⟨w, b', a', hw, hb', ha', rfl⟩ := exists_of_comma he comma
      refine ⟨'"' :: (u ++ (b ++ ':' :: (a ++ (w ++ (b' ++ ',' :: (a' ++ c)))))), l, ?_, start,
        fun v opens => ⟨opens_quote _, ?_⟩⟩
      · simp [text, rest]
      · obtain ⟨opens', found⟩ := way v opens
        have behind := seekMember_behind (named _) differs (colon (hw.solid_value _))
          (leaves_skipValue_comma hw hb' (a' ++ (c ++ (l ++ v)))) (skipSpace_comma hb' _)
        rw [skipSpace_append_of_solid ha' opens'.solid, found] at behind
        simpa using behind

/-- The same for items. -/
theorem local_seekItem {i : Nat} (h : seekItem i s = .ok (some p)) : Local (seekItem i) s p := by
  induction i generalizing s with
  | zero =>
    cases h
    exact local_here s
  | succ i ih =>
    obtain ⟨e, t, he, comma, h⟩ := cases_of_seekItem h
    obtain ⟨c, l, rest, start, way⟩ := ih h
    obtain ⟨w, b, a, hw, hb, ha, rfl⟩ := exists_of_comma he comma
    refine ⟨w ++ (b ++ ',' :: (a ++ c)), l, by simp [rest], start, fun v opens => ⟨?_, ?_⟩⟩
    · rw [List.append_assoc]
      exact hw.opens _
    · obtain ⟨opens', found⟩ := way v opens
      have behind := seekItem_behind i (leaves_skipValue_comma hw hb (a ++ (c ++ (l ++ v))))
        (skipSpace_comma hb _)
      rw [skipSpace_append_of_solid ha opens'.solid, found] at behind
      simpa using behind

theorem local_seek (h : seek step s = .ok (some p)) : Local (seek step) s p := by
  cases step with
  | key name => exact local_seekMember h
  | index i => exact local_seekItem h

theorem local_enter (h : enter step s = .ok (some p)) : Local (enter step) s p := by
  obtain ⟨t, rfl, -, h⟩ := cases_of_enter h
  obtain ⟨b, hb, text⟩ := exists_blank t
  obtain ⟨a, l, rest, start, way⟩ := local_seek h
  rw [rest] at text
  refine ⟨step.container.opening :: (b ++ a), l, by simp [text], start, fun v opens => ?_⟩
  obtain ⟨opens', found⟩ := way v opens
  refine ⟨opens_opening _ _, ?_⟩
  have inside : skipSpace (b ++ (a ++ (l ++ v))) = a ++ (l ++ v) :=
    skipSpace_append_of_solid hb opens'.solid
  have filled : ∀ u, skipSpace (b ++ (a ++ (l ++ v))) ≠ step.container.close :: u := by
    intro u close
    obtain ⟨c, t, first, -, notClosing⟩ := opens'
    rw [inside, first] at close
    exact notClosing _ (List.cons.inj close).1
  have entered := enter_opening filled
  rw [inside, found] at entered
  simpa using entered

/-- A way of several steps is one way after the other. -/
theorem local_descend {q : Path} (h : descend q ⟨s, s⟩ = .ok (some p)) :
    Local (fun s => descend q ⟨s, s⟩) s p := by
  induction q using List.reverseRecOn generalizing p with
  | nil =>
    cases h
    exact local_here s
  | append_singleton q step ih =>
    obtain ⟨m, walked, last⟩ := descend_append_eq_some h
    rw [descend_singleton] at last
    obtain ⟨a, l, text, -, way⟩ := ih walked
    obtain ⟨b, k, rest, start, entered⟩ := local_enter last
    refine ⟨a ++ (l ++ b), k, by simp [text, rest], start, fun v opens => ?_⟩
    obtain ⟨opens', found⟩ := entered v opens
    obtain ⟨opens'', led⟩ := way _ opens'
    have whole : a ++ (l ++ b) ++ (k ++ v) = a ++ (l ++ (b ++ (k ++ v))) := by simp
    rw [whole]
    refine ⟨opens'', (descend_append_of_some led [step]).trans ?_⟩
    rw [descend_singleton]
    exact found

/-! ### Spans -/

/-- The path leads to a number or a word, or to whatever stands in the place of one. -/
def LeadsToScalar (text : List Char) (q : Path) : Prop :=
  ∃ m, descend q (.root text) = .ok (some m) ∧ ∀ c ∈ m.value.head?, Bare c

/-- With something else behind the value, the walk comes to the same value. -/
theorem Found.replace {before label w r : List Char} {q : Path}
    (h : Found (before ++ (label ++ (w ++ e))) q ⟨label ++ (w ++ e), w ++ e⟩ e)
    (hw : Loose .value w) (follows : Follows w r) :
    Found (before ++ (label ++ (w ++ r))) q ⟨label ++ (w ++ r), w ++ r⟩ r := by
  obtain ⟨b, hb, text⟩ := exists_blank (before ++ (label ++ (w ++ e)))
  obtain ⟨a, l, rest, start, way⟩ := local_descend h.leads
  obtain rfl : label = l := List.append_cancel_right start
  rw [rest, ← List.append_assoc b] at text
  obtain rfl : before = b ++ a := List.append_cancel_right text
  obtain ⟨opens, led⟩ := way (w ++ r) (hw.opens r)
  refine ⟨?_, hw.passes (p := .value) r fun _ => follows⟩
  rw [List.append_assoc, Place.root, skipSpace_append_of_solid hb opens.solid]
  exact led

/-- The byte behind a scalar, if there is one, is that of a character that ends scalars. -/
def Terminated (text : List Char) (stop : Nat) : Prop :=
  ∀ b ∈ (Text.bytes text)[stop]?, ∃ c, isDelimiter c ∧ b = Text.byte c

theorem ascii_of_isDelimiter {c : Char} (h : isDelimiter c) : c.toNat < 128 := by
  simp only [isDelimiter, Text.isAsciiBlank, Text.isJsonBlank, Bool.or_eq_true, beq_iff_eq] at h
  rcases h with (((rfl | rfl) | rfl) | rfl) | ((((rfl | rfl) | rfl) | rfl) | rfl) <;> decide

/-- A character that ends scalars is told by its first byte. -/
theorem stops_of_terminated {before r : List Char}
    (h : Terminated (before ++ r) (Text.byteLength before)) : Stops r := by
  intro d hd
  obtain ⟨r, rfl⟩ := List.head?_eq_some_iff.1 hd
  obtain ⟨b, bs, first⟩ := List.exists_cons_of_ne_nil (Text.bytes_ne_nil d r)
  have there : (Text.bytes (d :: r)).head? = some b := by rw [first, List.head?_cons]
  obtain ⟨c, delimits, rfl⟩ := h b (by rw [Text.getElem?_bytes, there]; rfl)
  cases Text.head?_of_byte (ascii_of_isDelimiter delimits) there
  exact delimits

/-- What is found hangs only on the text up to its end. In a text that starts with the same bytes
    the same is found, whatever follows; just a scalar must not run on. -/
theorem find_local {text other : List Char} {q : Path} {s : Span}
    (h : find text q = .ok (some s))
    (same : (Text.bytes other).take s.stop = (Text.bytes text).take s.stop)
    (ends : LeadsToScalar text q → Terminated other s.stop) : find other q = .ok (some s) := by
  obtain ⟨m, e, found, rfl⟩ := find_eq_some_iff.1 h
  obtain ⟨before, label, w, hw, -, rfl, rfl⟩ := found.cut
  have cut (r : List Char) : before ++ (label ++ (w ++ r)) = before ++ (label ++ w) ++ r := by simp
  rw [Place.upTo_append] at same ends ⊢
  rw [cut, Text.take_bytes] at same
  have starts : Text.bytes (before ++ (label ++ w)) <+: Text.bytes other := by
    rw [← same]
    exact List.take_prefix ..
  obtain ⟨r, rfl⟩ := Text.prefix_of_bytes starts
  have follows : Follows w r := by
    obtain ⟨c, t, rfl, -⟩ := hw.exists_cons_value
    exact fun bare => stops_of_terminated (ends ⟨_, found.leads, bare⟩)
  rw [← cut]
  exact find_eq_some_iff.2 ⟨_, r, found.replace hw follows, (Place.upTo_append ..).symm⟩

/-- A text with a number, and two that start like it, of which one goes on otherwise behind the
    number and the other one behind the list. -/
def numberAndList : List Char := "\x7b\"a\": 12, \"b\": [1]\x7d".toList

def numberOnly : List Char := "\x7b\"a\": 12 é".toList

def listOnly : List Char := "\x7b\"a\": 12, \"b\": [1]é".toList

theorem find_local_numberAndList :
    find numberAndList [.key "a"] = .ok (some ⟨1, 8, "\"a\": 12".toList⟩) ∧
      find numberOnly [.key "a"] = .ok (some ⟨1, 8, "\"a\": 12".toList⟩) ∧
      find numberAndList [.key "b"] = .ok (some ⟨10, 18, "\"b\": [1]".toList⟩) ∧
      find listOnly [.key "b"] = .ok (some ⟨10, 18, "\"b\": [1]".toList⟩) := by
  have number : find numberAndList [.key "a"] = .ok (some ⟨1, 8, "\"a\": 12".toList⟩) := by
    decide +kernel
  have list : find numberAndList [.key "b"] = .ok (some ⟨10, 18, "\"b\": [1]".toList⟩) := by
    decide +kernel
  refine ⟨number, ?_, list, ?_⟩
  · refine find_local number (by decide) fun _ b hb => ⟨' ', by decide, ?_⟩
    cases (show (Text.bytes numberOnly)[8]? = some (Text.byte ' ') by decide).symm.trans hb
    rfl
  · refine find_local list (by decide) ?_
    rintro ⟨m, led, scalar⟩
    have walked : descend [.key "b"] (.root numberAndList) =
        .ok (some ⟨numberAndList.drop 10, numberAndList.drop 15⟩) := by decide +kernel
    cases walked.symm.trans led
    exact absurd rfl (scalar '[' rfl).2.1

end FlowLint.Locate

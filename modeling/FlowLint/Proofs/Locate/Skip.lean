import FlowLint.Locate.Find
import FlowLint.Proofs.Json.Completeness

/-!
The locator passes over just the text of a value, wherever a spelled one stands: what it looks at is
enough to find the end of all that the reader accepts.
-/

namespace FlowLint.Locate

open Json

variable {s r : List Char} {c : Char}

/-! ### Blanks -/

/-- The blanks of JSON are blanks for the locator too. -/
@[simp] theorem skipSpace_append (b : Blanks) (s : List Char) :
    skipSpace (b.text ++ s) = skipSpace s :=
  List.dropWhile_append_of_pos fun c hc => Text.isAsciiBlank_of_isJsonBlank (b.blank c hc)

theorem skipSpace_cons (h : ¬ Text.isAsciiBlank c) : skipSpace (c :: s) = c :: s :=
  List.dropWhile_cons_of_neg h

theorem skipSpace_token {b : Blanks} (h : ¬ Text.isAsciiBlank c) :
    skipSpace (b.text ++ c :: s) = c :: s := by
  rw [skipSpace_append, skipSpace_cons h]

/-- The one blank that is no blank in a document starts no value either. -/
theorem not_isAsciiBlank_of_startsValue (h : StartsValue c) : ¬ Text.isAsciiBlank c := by
  have formFeed : c ≠ '\x0c' := by
    rintro rfl
    revert h
    simp [StartsValue]
    decide
  simp [Text.isAsciiBlank, h.not_blank, formFeed]

/-- Before a value all blanks are skipped and nothing else. -/
theorem skipSpace_spelling (b : Blanks) (v : Spelling) (r : List Char) :
    skipSpace (b.text ++ (v.text ++ r)) = v.text ++ r := by
  obtain ⟨c, t, e, start⟩ := v.exists_cons
  rw [e]
  exact skipSpace_token (not_isAsciiBlank_of_startsValue start)

theorem skipSpace_label (b : Blanks) (l : Label) (r : List Char) :
    skipSpace (b.text ++ (l.text ++ r)) = l.text ++ r := by
  rw [l.text_append]
  exact skipSpace_token (by decide)

/-! ### Literals -/

theorem leaves_expect : Leaves (expect c (c :: s)) s := by
  rw [expect, if_pos rfl]
  exact (leaves_ok ..).2 rfl

/-- Within a literal most characters stand for themselves. -/
theorem leaves_afterQuote_plain (quote : c ≠ '"') (slash : c ≠ '\\') (h : Leaves (afterQuote s) r) :
    Leaves (afterQuote (c :: s)) r := by
  rw [afterQuote]
  · exact h.map fun _ => rfl
  · exact quote
  · exact fun e _ => slash e
  · exact fun _ _ e _ => slash e

/-- What a backslash precedes is passed over, whatever it is. -/
theorem leaves_afterQuote_escaped (h : Leaves (afterQuote s) r) :
    Leaves (afterQuote ('\\' :: c :: s)) r := by
  rw [afterQuote]
  exact h.map fun _ => rfl

/-- Neither quotes nor backslashes are digits. -/
theorem ne_of_hexDigit? {n : Nat} (h : Text.hexDigit? c = some n) : c ≠ '"' ∧ c ≠ '\\' := by
  constructor <;> rintro rfl <;> revert h <;> simp [show Text.hexDigit? '"' = none by decide,
    show Text.hexDigit? '\\' = none by decide]

/-- The digits of a code are passed over one by one, like all else. -/
theorem leaves_afterQuote_code {a b c d : Char} {n : Nat} (hn : Literal.code? a b c d = some n)
    (h : Leaves (afterQuote s) r) : Leaves (afterQuote (a :: b :: c :: d :: s)) r := by
  simp only [Literal.code?, Option.bind_eq_bind, Option.bind_eq_some_iff] at hn
  obtain ⟨_, ha, _, hb, _, hc, _, hd, -⟩ := hn
  have plain {c : Char} {n : Nat} (hc : Text.hexDigit? c = some n) {s : List Char}
      (h : Leaves (afterQuote s) r) : Leaves (afterQuote (c :: s)) r :=
    leaves_afterQuote_plain (ne_of_hexDigit? hc).1 (ne_of_hexDigit? hc).2 h
  exact plain ha (plain hb (plain hc (plain hd h)))

/-- So all escapes are passed over, though none is understood. -/
theorem leaves_afterQuote_escape {e : List Char} (he : Literal.Escape e c)
    (h : Leaves (afterQuote s) r) : Leaves (afterQuote ('\\' :: (e ++ s))) r := by
  cases he with
  | letter he => exact leaves_afterQuote_escaped h
  | code hn lone => exact leaves_afterQuote_escaped (leaves_afterQuote_code hn h)
  | pair hm lead hn trail =>
    exact leaves_afterQuote_escaped (leaves_afterQuote_code hm
      (leaves_afterQuote_escaped (leaves_afterQuote_code hn h)))

/-- The quote that ends a literal is the first one that no backslash precedes. -/
theorem leaves_afterQuote {u cs : List Char} (h : Literal.Body u cs) (r : List Char) :
    Leaves (afterQuote (u ++ r)) r := by
  induction h with
  | close =>
    rw [List.singleton_append, afterQuote]
    exact (leaves_ok ..).2 rfl
  | escape he _ ih =>
    rw [List.cons_append, List.append_assoc]
    exact leaves_afterQuote_escape he ih
  | plain quote slash _ _ ih => exact leaves_afterQuote_plain quote slash ih

/-- A literal is passed over with both of its quotes. -/
theorem leaves_skipLiteral (q : Quoted) (r : List Char) : Leaves (skipLiteral (q.text ++ r)) r :=
  leaves_expect.bind fun _ => (leaves_afterQuote q.spelled r).bind fun _ => (leaves_ok ..).2 rfl

/-! ### Names -/

/-- Between a name and its value there is a colon with blanks around it. -/
theorem leaves_skipColon (b a : Blanks) (v : Spelling) (r : List Char) :
    Leaves (skipColon (b.text ++ ':' :: (a.text ++ (v.text ++ r)))) (v.text ++ r) := by
  have colon : skipSpace (b.text ++ ':' :: (a.text ++ (v.text ++ r))) = ':' :: _ :=
    skipSpace_token (by decide)
  have expected : Leaves (expect ':' (skipSpace (b.text ++ ':' :: (a.text ++ (v.text ++ r)))))
      (a.text ++ (v.text ++ r)) := by
    rw [colon]
    exact leaves_expect
  exact expected.bind fun _ => (leaves_ok ..).2 (skipSpace_spelling a v r)

theorem label_append (l : Label) (r : List Char) :
    l.text ++ r = l.quoted.text ++ (l.before.text ++ ':' :: (l.after.text ++ r)) := by
  simp [Label.text]

/-- A name is passed over with its colon, up to the value. -/
theorem leaves_skipName (l : Label) (v : Spelling) (r : List Char) :
    Leaves (skipName .record (l.text ++ (v.text ++ r))) (v.text ++ r) := by
  rw [label_append]
  exact (leaves_skipLiteral l.quoted _).bind fun _ =>
    (leaves_skipColon l.before l.after v r).bind fun _ => (leaves_ok ..).2 rfl

/-! ### Scalars -/

/-- No character of a word or a number ends it. -/
theorem not_isDelimiter_of_isWordChar (h : isWordChar c) : ¬ isDelimiter c := by
  have start : StartsValue c := .inr (.inr (.inr h))
  have blank := not_isAsciiBlank_of_startsValue start
  have closing := start.not_closing
  have comma : c ≠ ',' := by rintro rfl; revert h; decide
  have colon : c ≠ ':' := by rintro rfl; revert h; decide
  simp [isDelimiter, blank, closing, comma, colon]

/-- Whatever may follow a value ends a word or a number. -/
theorem isDelimiter_of_delimited (h : Delimited r) : ∀ c ∈ r.head?, isDelimiter c := by
  intro c hc
  rcases h c hc with rfl | rfl | rfl | blank
  · decide
  · decide
  · decide
  · simp [isDelimiter, Text.isAsciiBlank_of_isJsonBlank blank]

theorem dropWhile_word {w : List Char} (hw : ∀ c ∈ w, isWordChar c) (hr : Delimited r) :
    (w ++ r).dropWhile (!isDelimiter ·) = r := by
  rw [List.dropWhile_append_of_pos fun c hc => by
    simpa using not_isDelimiter_of_isWordChar (hw c hc)]
  cases r with
  | nil => rfl
  | cons c r =>
    have := isDelimiter_of_delimited hr c rfl
    exact List.dropWhile_cons_of_neg (by simp [this])

/-- A word or a number is passed over, unread, to its end. -/
theorem leaves_skipScalar (w : Scalar) (hr : Delimited r) :
    Leaves (skipScalar (w.text ++ r)) r := by
  obtain ⟨c, t, e, hc⟩ := w.exists_cons
  have word := w.spelled.wordChar
  rw [e] at word ⊢
  rw [List.cons_append, skipScalar, if_neg (not_isDelimiter_of_isWordChar hc), leaves_ok]
  exact dropWhile_word (fun c hc => word c (List.mem_cons_of_mem _ hc)) hr

/-! ### Containers -/

section Steps

variable {k : Container} {t u : List Char}

theorem leaves_list (h : Leaves (skipContainer .list s) r) : Leaves (skipValue ('[' :: s)) r := by
  rw [skipValue]
  exact h.bind fun _ => (leaves_ok ..).2 rfl

theorem leaves_record (h : Leaves (skipContainer .record s) r) :
    Leaves (skipValue ('{' :: s)) r := by
  rw [skipValue]
  exact h.bind fun _ => (leaves_ok ..).2 rfl

theorem leaves_empty (hs : skipSpace s = k.close :: r) : Leaves (skipContainer k s) r := by
  unfold skipContainer
  split <;> rename_i h <;> cases hs.symm.trans h
  rw [if_pos rfl, leaves_ok]

/-- A container that is not closed at once has entries. -/
theorem leaves_entries (hs : skipSpace s = c :: t) (notClosed : c ≠ k.close)
    (entries : Leaves (skipEntries k (c :: t)) r) : Leaves (skipContainer k s) r := by
  unfold skipContainer
  split <;> rename_i h <;> cases hs.symm.trans h
  rw [if_neg notClosed]
  exact entries.bind fun _ => (leaves_ok ..).2 rfl

/-- Behind the last entry the container is closed. -/
theorem leaves_lastEntry (hn : Leaves (skipName k s) t) (hv : Leaves (skipValue t) u)
    (hu : skipSpace u = k.close :: r) : Leaves (skipEntries k s) r := by
  have notComma : k.close ≠ ',' := by cases k <;> decide
  rw [skipEntries]
  refine hn.bind fun _ => hv.bind fun _ => ?_
  simp only
  split
  · next h => cases hu.symm.trans h
  · next h =>
    have := hu.symm.trans h
    simp [notComma] at this
  · next h =>
    cases hu.symm.trans h
    rw [if_pos rfl, leaves_ok]

/-- Behind any other entry there is a comma, and then the next. -/
theorem leaves_moreEntries {w : List Char} (hn : Leaves (skipName k s) t)
    (hv : Leaves (skipValue t) u) (hu : skipSpace u = ',' :: w)
    (more : Leaves (skipEntries k (skipSpace w)) r) : Leaves (skipEntries k s) r := by
  rw [skipEntries]
  refine hn.bind fun _ => hv.bind fun _ => ?_
  simp only
  split <;> rename_i h <;> cases hu.symm.trans h
  · exact more.bind fun _ => (leaves_ok ..).2 rfl
  · contradiction

theorem leaves_noName : Leaves (skipName .list s) s := (leaves_ok ..).2 rfl

end Steps

theorem leaves_skipValue_scalar (w : Scalar) (hr : Delimited r) :
    Leaves (skipValue (w.text ++ r)) r := by
  have passed := leaves_skipScalar w hr
  obtain ⟨c, t, e, hc⟩ := w.exists_cons
  rw [e, List.cons_append] at passed ⊢
  rw [skipValue]
  · exact passed
  all_goals
    rintro _ h
    cases h
    revert hc
    decide

theorem leaves_skipValue_string (q : Quoted) (r : List Char) :
    Leaves (skipValue (q.text ++ r)) r := by
  rw [Quoted.text, List.cons_append, skipValue]
  exact (leaves_afterQuote q.spelled r).map fun _ => rfl

/-- The first item starts behind the blanks. -/
theorem exists_item (items : ItemSpellings) (r : List Char) :
    ∃ c t, skipSpace (items.text ++ r) = c :: t ∧ StartsValue c := by
  have first (b : Blanks) (v : Spelling) (u : List Char) :
      ∃ c t, skipSpace (b.text ++ (v.text ++ u)) = c :: t ∧ StartsValue c := by
    obtain ⟨c, t, e, start⟩ := v.exists_cons
    exact ⟨c, t ++ u, by rw [skipSpace_spelling, e, List.cons_append], start⟩
  cases items with
  | last b v a =>
    rw [ItemSpellings.last_append]
    exact first b v _
  | more b v a others =>
    rw [ItemSpellings.more_append]
    exact first b v _

theorem exists_member (ms : MemberSpellings) (r : List Char) :
    ∃ t, skipSpace (ms.text ++ r) = '"' :: t := by
  cases ms with
  | last b l v a =>
    rw [MemberSpellings.last_append, skipSpace_label, Label.text_append]
    exact ⟨_, rfl⟩
  | more b l v a others =>
    rw [MemberSpellings.more_append, skipSpace_label, Label.text_append]
    exact ⟨_, rfl⟩

/-! ### Values -/

mutual

/-- A value is passed over and no more. -/
theorem leaves_skipValue : ∀ (v : Spelling) {r : List Char}, Delimited r →
    Leaves (skipValue (v.text ++ r)) r
  | .scalar w, r, hr => leaves_skipValue_scalar w hr
  | .string q, r, _ => leaves_skipValue_string q r
  | .emptyArray b, r, _ => by
    rw [Spelling.emptyArray_append]
    exact leaves_list (leaves_empty (skipSpace_token (by decide)))
  | .array items, r, _ => by
    obtain ⟨c, t, e, start⟩ := exists_item items (']' :: r)
    have passed := leaves_items items r
    rw [e] at passed
    rw [Spelling.array_append]
    exact leaves_list (leaves_entries e start.not_closing.1 passed)
  | .emptyObject b, r, _ => by
    rw [Spelling.emptyObject_append]
    exact leaves_record (leaves_empty (skipSpace_token (by decide)))
  | .object ms, r, _ => by
    obtain ⟨t, e⟩ := exists_member ms ('}' :: r)
    have passed := leaves_members ms r
    rw [e] at passed
    rw [Spelling.object_append]
    exact leaves_record (leaves_entries e (by decide) passed)

theorem leaves_items : ∀ (items : ItemSpellings) (r : List Char),
    Leaves (skipEntries .list (skipSpace (items.text ++ ']' :: r))) r
  | .last b v a, r => by
    have hr : Delimited (a.text ++ ']' :: r) := (delimited_cons (.inr (.inl rfl))).append a
    rw [ItemSpellings.last_append, skipSpace_spelling]
    exact leaves_lastEntry leaves_noName (leaves_skipValue v hr) (skipSpace_token (by decide))
  | .more b v a others, r => by
    have hr : Delimited (a.text ++ ',' :: (others.text ++ ']' :: r)) :=
      (delimited_cons (.inl rfl)).append a
    rw [ItemSpellings.more_append, skipSpace_spelling]
    exact leaves_moreEntries leaves_noName (leaves_skipValue v hr) (skipSpace_token (by decide))
      (leaves_items others r)

theorem leaves_members : ∀ (ms : MemberSpellings) (r : List Char),
    Leaves (skipEntries .record (skipSpace (ms.text ++ '}' :: r))) r
  | .last b l v a, r => by
    have hr : Delimited (a.text ++ '}' :: r) := (delimited_cons (.inr (.inr rfl))).append a
    rw [MemberSpellings.last_append, skipSpace_label]
    exact leaves_lastEntry (leaves_skipName l v _) (leaves_skipValue v hr)
      (skipSpace_token (by decide))
  | .more b l v a others, r => by
    have hr : Delimited (a.text ++ ',' :: (others.text ++ '}' :: r)) :=
      (delimited_cons (.inl rfl)).append a
    rw [MemberSpellings.more_append, skipSpace_label]
    exact leaves_moreEntries (leaves_skipName l v _) (leaves_skipValue v hr)
      (skipSpace_token (by decide)) (leaves_members others r)

end

end FlowLint.Locate

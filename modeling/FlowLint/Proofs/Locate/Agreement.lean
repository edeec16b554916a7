import FlowLint.Proofs.Locate.Cursor
import FlowLint.Proofs.Locate.Nesting
import FlowLint.Proofs.Text.Reader

/-!
The walk over characters and the walk with a cursor come to the same places, and stop for the same
reasons, which are true of the text. The cursor always stands at the start of a character when it
looks at one, or at the end of the text.
-/

namespace FlowLint.Locate

open Json
open Text (bytes byte)

variable {text : List Char} {path : Path} {s t : List Char} {pos : Nat} {c w : Char}

/-! ### The cursor -/

/-- At the cursor, `s` is what is left of the text. -/
def At (text : List Char) (pos : Nat) (s : List Char) : Prop :=
  ∃ before, text = before ++ s ∧ pos = Text.byteLength before

theorem At.offsetOf_eq (h : At text pos s) : offsetOf text s = pos := by
  obtain ⟨before, rfl, rfl⟩ := h
  exact offsetOf_append before s

theorem At.suffix (h : At text pos s) : s <:+ text := by
  obtain ⟨before, rfl, -⟩ := h
  exact List.suffix_append before s

/-- From the byte at the cursor on the text is what is left. -/
theorem At.fromByte?_eq (h : At text pos s) : Text.fromByte? text pos = some s := by
  obtain ⟨before, rfl, rfl⟩ := h
  exact Text.fromByte?_append before s

/-- A cursor stands before one part of the text. -/
theorem At.unique (h : At text pos s) (h' : At text pos t) : s = t :=
  Option.some.inj (h.fromByte?_eq.symm.trans h'.fromByte?_eq)

theorem At.length_eq (h : At text pos []) : (bytes text).length = pos := by
  obtain ⟨before, rfl, rfl⟩ := h
  rw [List.append_nil, Text.length_bytes]

theorem At.append {cs : List Char} (h : At text pos (cs ++ s)) :
    At text (pos + Text.byteLength cs) s := by
  obtain ⟨before, rfl, rfl⟩ := h
  exact ⟨before ++ cs, by simp, by simp⟩

/-- The cursor after the next character. -/
theorem At.pass (h : At text pos (c :: s)) : At text (pos + c.utf8Size) s := by
  have there : At text (pos + Text.byteLength [c]) s := At.append h
  exact there

/-- Between two cursors stands what the second has passed. -/
theorem At.slice?_eq {stop : Nat} (h : At text pos (t ++ s)) (h' : At text stop s) :
    Text.slice? text pos stop = some t := by
  have here := h.append.offsetOf_eq
  have there := h'.offsetOf_eq
  obtain ⟨before, rfl, rfl⟩ := h
  rw [← there, here, ← Text.byteLength_append]
  exact Text.slice?_append before t s

theorem At.peek_nil (h : At text pos []) : Cursor.peek text pos = none := by
  obtain ⟨before, rfl, rfl⟩ := h
  exact Text.getElem?_bytes before []

/-- The byte at the cursor is one of the next character. -/
theorem At.peek_cons (h : At text pos (c :: s)) :
    ∃ b, Cursor.peek text pos = some b ∧ b ∈ String.utf8EncodeChar c := by
  obtain ⟨before, rfl, rfl⟩ := h
  obtain ⟨b, bs, first⟩ := List.exists_cons_of_ne_nil (Text.utf8EncodeChar_ne_nil c)
  refine ⟨b, (Text.getElem?_bytes before (c :: s)).trans ?_, ?_⟩
  · rw [Text.bytes_cons, first]
    rfl
  · rw [first]
    exact List.mem_cons_self

theorem At.eq_nil_of_peek (h : At text pos s) (none' : Cursor.peek text pos = none) : s = [] := by
  cases s with
  | nil => rfl
  | cons c s =>
    obtain ⟨b, there, -⟩ := h.peek_cons
    cases none'.symm.trans there

theorem At.exists_of_peek {b : UInt8} (h : At text pos s)
    (there : Cursor.peek text pos = some b) :
    ∃ c t, s = c :: t ∧ b ∈ String.utf8EncodeChar c := by
  cases s with
  | nil => cases h.peek_nil.symm.trans there
  | cons c s =>
    obtain ⟨b', there', hb⟩ := h.peek_cons
    cases there.symm.trans there'
    exact ⟨c, s, rfl, hb⟩

theorem At.next (h : At text pos (c :: s)) (ascii : c.toNat < 128) : At text (pos + 1) s := by
  have there := h.pass
  rwa [Text.utf8Size_of_ascii ascii] at there

/-- For a character of ASCII the byte tells the character. -/
theorem At.peek_eq_iff (h : At text pos s) (ascii : w.toNat < 128) :
    Cursor.peek text pos = some (byte w) ↔ ∃ t, s = w :: t := by
  constructor
  · intro there
    obtain ⟨c, t, rfl, hb⟩ := h.exists_of_peek there
    exact ⟨t, by rw [(Text.eq_byte_iff ascii hb).1 rfl]⟩
  · rintro ⟨t, rfl⟩
    obtain ⟨b, there, hb⟩ := h.peek_cons
    rw [there, (Text.eq_byte_iff ascii hb).2 rfl]

/-! ### Agreement -/

/-- What a walk says where it stops is so. -/
def Snag.Holds (text : List Char) : Snag → Prop
  | .ended                    => True
  | .unexpected found after   => found :: after <:+ text
  | .invalidName start reason => start <:+ text ∧
    ∃ u r, Closed u ∧ start = '"' :: (u ++ r) ∧ literal? ('"' :: u) = .error reason

section

variable {α β α' β' : Type} {R : α → β → Prop} {S : α' → β' → Prop}

/-- Both walks succeed with results that correspond, or both stop for one reason, which holds. -/
def Agree (text : List Char) (path : Path) (R : α → β → Prop) :
    Except LocateError α → Except Snag β → Prop
  | .ok a,    .ok b       => R a b
  | .error e, .error snag => e = snag.toError text path ∧ snag.Holds text
  | _,        _           => False

variable {F : Except LocateError α} {f : Except Snag β}

/-- Two walks that agree go on alike if what comes next agrees. -/
theorem Agree.bind {G : α → Except LocateError α'} {g : β → Except Snag β'}
    (h : Agree text path R F f)
    (next : ∀ a b, f = .ok b → R a b → Agree text path S (G a) (g b)) :
    Agree text path S (F >>= G) (f >>= g) := by
  cases F with
  | error e =>
    cases f with
    | error snag => exact h
    | ok b => exact h.elim
  | ok a =>
    cases f with
    | error snag => exact h.elim
    | ok b => exact next a b rfl h

theorem agree_ended (h : (bytes text).length ≤ pos) :
    Agree text path R (.error (Cursor.ended text path pos)) (.error .ended) := by
  rw [Agree, Cursor.ended, Nat.min_eq_right h, Text.length_bytes]
  exact ⟨rfl, trivial⟩

theorem agree_unexpected_end (h : At text pos []) :
    Agree text path R (.error (Cursor.unexpected text path pos)) (.error .ended) := by
  rw [Cursor.unexpected, h.fromByte?_eq]
  exact agree_ended h.length_eq.le

/-- A character that is not expected is shown by both, the same one. -/
theorem agree_unexpected (h : At text pos (c :: s)) :
    Agree text path R (.error (Cursor.unexpected text path pos)) (.error (.unexpected c s)) := by
  rw [Agree, Cursor.unexpected, h.fromByte?_eq, Snag.toError, h.offsetOf_eq]
  exact ⟨rfl, h.suffix⟩

end

/-- Both walks come to the same place, or stop for one reason. -/
def Meet (text : List Char) (path : Path) {P : Nat → Prop} {Q : List Char → Prop}
    (F : Except LocateError {q : Nat // P q}) (f : Except Snag {r : List Char // Q r}) : Prop :=
  Agree text path (fun q r => At text q.val r.val) F f

section

variable {P P' : Nat → Prop} {Q Q' : List Char → Prop}
  {F : Except LocateError {q : Nat // P q}} {f : Except Snag {r : List Char // Q r}}

/-- Where only the bounds change the places stay. -/
theorem Meet.bind_pure_left {φ : {q : Nat // P q} → {q : Nat // P' q}} (h : Meet text path F f)
    (hφ : ∀ q, (φ q).val = q.val) : Meet text path (F >>= fun q => pure (φ q)) f := by
  cases F <;> cases f
  · exact h
  · exact h
  · exact h
  · next q r =>
    rw [Meet, Agree] at h
    show At text (φ q).val r.val
    rwa [hφ]

theorem Meet.map_right {ψ : {r : List Char // Q r} → {r : List Char // Q' r}}
    (h : Meet text path F f) (hψ : ∀ r, (ψ r).val = r.val) : Meet text path F (f.map ψ) := by
  cases F <;> cases f
  · exact h
  · exact h
  · exact h
  · next q r =>
    rw [Meet, Agree] at h
    show At text q.val (ψ r).val
    rwa [hψ]

theorem Meet.error {snag : Snag} (h : Meet text path F (.error snag : Except Snag {r // Q r})) :
    Meet text path F (.error snag : Except Snag {r // Q' r}) := by
  cases F <;> exact h

theorem Meet.bind_pure_right {ψ : {r : List Char // Q r} → {r : List Char // Q' r}}
    (h : Meet text path F f) (hψ : ∀ r, (ψ r).val = r.val) :
    Meet text path F (f >>= fun r => pure (ψ r)) :=
  h.map_right hψ

end

/-! ### Runs of bytes -/

/-- No byte of a longer character is one of ASCII. -/
theorem isOneOf_eq {cs : List Char} (ascii : ∀ w ∈ cs, w.toNat < 128) {b : UInt8}
    (hb : b ∈ String.utf8EncodeChar c) : Cursor.isOneOf cs b = cs.contains c := by
  rw [Bool.eq_iff_iff, Cursor.isOneOf, List.any_eq_true, List.contains_iff_mem]
  constructor
  · rintro ⟨w, hw, same⟩
    rwa [(Text.eq_byte_iff (ascii w hw) hb).1 (beq_iff_eq.1 same).symm]
  · intro hc
    exact ⟨c, hc, beq_iff_eq.2 ((Text.eq_byte_iff (ascii c hc) hb).2 rfl).symm⟩

theorem isOneOf_blanks {b : UInt8} (hb : b ∈ String.utf8EncodeChar c) :
    Cursor.isOneOf Cursor.blanks b = Text.isAsciiBlank c := by
  rw [isOneOf_eq (by simp [Cursor.blanks]) hb, Bool.eq_iff_iff]
  simp [Cursor.blanks, Text.isAsciiBlank, Text.isJsonBlank, or_assoc]

theorem isOneOf_delimiters {b : UInt8} (hb : b ∈ String.utf8EncodeChar c) :
    Cursor.isOneOf Cursor.delimiters b = isDelimiter c := by
  rw [isOneOf_eq (by simp [Cursor.delimiters, Cursor.blanks]) hb, Bool.eq_iff_iff]
  simp [Cursor.delimiters, Cursor.blanks, isDelimiter, Text.isAsciiBlank, Text.isJsonBlank,
    or_assoc]

/-- The bytes stand there. -/
def Over (text : List Char) (pos : Nat) (bs : List UInt8) : Prop :=
  ∃ pre post, bytes text = pre ++ (bs ++ post) ∧ pos = pre.length

theorem At.over (h : At text pos (c :: s)) : Over text pos (String.utf8EncodeChar c) := by
  obtain ⟨before, rfl, rfl⟩ := h
  exact ⟨bytes before, bytes s, by simp, by simp⟩

theorem Over.cons {b : UInt8} {bs : List UInt8} (h : Over text pos (b :: bs)) :
    Cursor.peek text pos = some b ∧ Over text (pos + 1) bs := by
  obtain ⟨pre, post, text', rfl⟩ := h
  constructor
  · rw [Cursor.peek, text']
    simp
  · exact ⟨pre ++ [b], post, by simp [text'], by simp⟩

theorem val_passWhile_eq {p : UInt8 → Bool} {b : UInt8} (h : Cursor.peek text pos = some b) :
    (Cursor.passWhile text p pos).val =
      if p b then (Cursor.passWhile text p (pos + 1)).val else pos := by
  rw [Cursor.passWhile]
  split
  · next none' => cases none'.symm.trans h
  · next b' some' =>
    cases some'.symm.trans h
    split <;> rfl

/-- A run of bytes is passed as far as all of them are to be passed. -/
theorem val_passWhile_of_over {p : UInt8 → Bool} {bs : List UInt8} (h : Over text pos bs)
    (pass : ∀ b ∈ bs, p b) :
    (Cursor.passWhile text p pos).val = (Cursor.passWhile text p (pos + bs.length)).val := by
  induction bs generalizing pos with
  | nil => rfl
  | cons b bs ih =>
    obtain ⟨there, rest⟩ := h.cons
    rw [val_passWhile_eq there, if_pos (pass b List.mem_cons_self),
      ih rest fun b hb => pass b (List.mem_cons_of_mem _ hb), List.length_cons,
      Nat.add_comm bs.length, ← Nat.add_assoc]

/-- A run of characters is a run of bytes. -/
theorem at_passWhile {p : UInt8 → Bool} {q : Char → Bool}
    (same : ∀ c, ∀ b ∈ String.utf8EncodeChar c, p b = q c) (h : At text pos s) :
    At text (Cursor.passWhile text p pos).val (s.dropWhile q) := by
  induction s generalizing pos with
  | nil =>
    rw [Cursor.passWhile]
    split
    · exact h
    · next some' => cases h.peek_nil.symm.trans some'
  | cons c s ih =>
    cases hc : q c with
    | true =>
      rw [List.dropWhile_cons_of_pos hc,
        val_passWhile_of_over h.over fun b hb => (same c b hb).trans hc]
      refine ih ?_
      rw [String.length_utf8EncodeChar]
      exact h.pass
    | false =>
      obtain ⟨b, there, hb⟩ := h.peek_cons
      rw [List.dropWhile_cons_of_neg (by simp [hc]), val_passWhile_eq there,
        if_neg (by simp [same c b hb, hc])]
      exact h

theorem at_skipSpace (h : At text pos s) :
    At text (Cursor.skipSpace text pos).val (skipSpace s) :=
  at_passWhile (fun _ _ hb => isOneOf_blanks hb) h

/-- Words and numbers are passed to the same end. -/
theorem meet_skipScalar (h : At text pos (c :: s)) :
    Meet text path (Cursor.skipScalar text path pos) (skipScalar (c :: s)) := by
  have passed := at_passWhile (p := (!Cursor.isOneOf Cursor.delimiters ·)) (q := (!isDelimiter ·))
    (fun _ _ hb => by rw [isOneOf_delimiters hb]) h
  rw [Cursor.skipScalar, skipScalar]
  by_cases hc : isDelimiter c
  · rw [List.dropWhile_cons_of_neg (by simp [hc])] at passed
    have stays := passed.offsetOf_eq.symm.trans h.offsetOf_eq
    simp only [if_pos hc, dif_pos stays]
    exact agree_unexpected h
  · rw [List.dropWhile_cons_of_pos (by simp [hc])] at passed
    have moves : (Cursor.passWhile text (!Cursor.isOneOf Cursor.delimiters ·) pos).val ≠ pos := by
      intro stays
      rw [stays] at passed
      have shorter := (List.dropWhile_suffix (!isDelimiter ·) (l := s)).length_le
      have longer := congrArg List.length (passed.unique h)
      rw [List.length_cons] at longer
      omega
    simp only [if_neg hc, dif_neg moves]
    exact passed

theorem meet_expect (path : Path) (ascii : w.toNat < 128) (h : At text pos s) :
    Meet text path (Cursor.expect text path w pos) (expect w s) := by
  cases s with
  | nil =>
    rw [Cursor.expect]
    split
    · exact agree_ended h.length_eq.le
    · next some' => cases h.peek_nil.symm.trans some'
  | cons c s =>
    obtain ⟨b, there, hb⟩ := h.peek_cons
    rw [Cursor.expect, expect]
    split
    · next none' => cases none'.symm.trans there
    · next b' some' =>
      cases some'.symm.trans there
      by_cases hc : c = w
      · subst hc
        rw [if_pos ((Text.eq_byte_iff ascii hb).2 rfl), if_pos rfl]
        exact h.next ascii
      · rw [if_neg fun same => hc ((Text.eq_byte_iff ascii hb).1 same), if_neg hc]
        exact agree_unexpected h

theorem afterQuote_eq {b : UInt8} (h : Cursor.peek text pos = some b) :
    Cursor.afterQuote text path pos =
      if b = byte '\\' then do
        let q ← Cursor.afterQuote text path (pos + 2)
        return q.back
      else if b = byte '"' then .ok (Cursor.next h)
      else do
        let q ← Cursor.afterQuote text path (pos + 1)
        return (Cursor.next h).trans q := by
  rw [Cursor.afterQuote]
  split
  · next none' => cases none'.symm.trans h
  · next b' some' =>
    cases some'.symm.trans h
    rfl

theorem meet_afterQuote_end {Q : List Char → Prop} (h : (bytes text).length ≤ pos) :
    Meet text path (Cursor.afterQuote text path pos)
      (.error .ended : Except Snag {r : List Char // Q r}) := by
  rw [Cursor.afterQuote]
  split
  · exact agree_ended h
  · next some' => exact absurd (Cursor.lt_of_peek some') (Nat.not_lt.2 h)

theorem exists_of_expect (path : Path) (h : At text pos (w :: s)) (ascii : w.toNat < 128) :
    ∃ q, Cursor.expect text path w pos = .ok q ∧ At text q.val s := by
  have met := meet_expect path ascii h
  rw [expect, if_pos rfl] at met
  cases e : Cursor.expect text path w pos with
  | error e' =>
    rw [e] at met
    exact met.elim
  | ok q =>
    rw [e] at met
    exact ⟨q, rfl, met⟩

/-- Bytes that are neither quotes nor backslashes are passed over one by one. -/
theorem meet_afterQuote_of_over {Q : List Char → Prop} {bs : List UInt8}
    {f : Except Snag {r : List Char // Q r}} (h : Over text pos bs)
    (plain : ∀ b ∈ bs, b ≠ byte '\\' ∧ b ≠ byte '"')
    (rest : Meet text path (Cursor.afterQuote text path (pos + bs.length)) f) :
    Meet text path (Cursor.afterQuote text path pos) f := by
  induction bs generalizing pos with
  | nil => exact rest
  | cons b bs ih =>
    obtain ⟨there, others⟩ := h.cons
    obtain ⟨slash, quote⟩ := plain b List.mem_cons_self
    rw [afterQuote_eq there, if_neg slash, if_neg quote]
    refine (ih others (fun b hb => plain b (List.mem_cons_of_mem _ hb)) ?_).bind_pure_left
      fun _ => rfl
    rwa [List.length_cons, Nat.add_comm bs.length, ← Nat.add_assoc] at rest

/-- What a backslash leaves of the character behind it is no quote and no backslash. -/
theorem plain_of_mem_tail {b b' : UInt8} {bs : List UInt8}
    (encoded : String.utf8EncodeChar c = b' :: bs) (hb : b ∈ bs) :
    b ≠ byte '\\' ∧ b ≠ byte '"' := by
  by_cases ascii : c.toNat < 128
  · rw [Text.utf8EncodeChar_of_ascii ascii] at encoded
    cases encoded
    cases hb
  · have above := Text.le_of_mem_utf8EncodeChar ascii (encoded ▸ List.mem_cons_of_mem b' hb)
    constructor <;> rintro rfl <;> exact absurd above (by decide)

/-- A backslash takes one byte with it, and the others of that character are passed over. -/
theorem meet_afterQuote_slash (h : At text pos ('\\' :: c :: s))
    (rest : ∀ q, At text q s → Meet text path (Cursor.afterQuote text path q) (afterQuote s)) :
    Meet text path (Cursor.afterQuote text path pos) (afterQuote ('\\' :: c :: s)) := by
  obtain ⟨b, there, hb⟩ := h.peek_cons
  have behind := h.next (by decide)
  obtain ⟨b', bs, encoded⟩ := List.exists_cons_of_ne_nil (Text.utf8EncodeChar_ne_nil c)
  have size := congrArg List.length encoded
  rw [String.length_utf8EncodeChar, List.length_cons] at size
  have same : pos + 2 + bs.length = pos + 1 + c.utf8Size := by omega
  have others := behind.over
  rw [encoded] at others
  rw [afterQuote_eq there, if_pos ((Text.eq_byte_iff (by decide) hb).2 rfl), afterQuote]
  refine Meet.bind_pure_left (Meet.map_right ?_ fun _ => rfl) fun _ => rfl
  refine meet_afterQuote_of_over others.cons.2 (fun b hb => plain_of_mem_tail encoded hb) ?_
  rw [same]
  exact rest _ behind.pass

/-- A literal ends at the same quote for both, escapes or no escapes. -/
theorem meet_afterQuote (h : At text pos s) :
    Meet text path (Cursor.afterQuote text path pos) (afterQuote s) := by
  induction s using afterQuote.induct generalizing pos with
  | case1 => exact meet_afterQuote_end h.length_eq.le
  | case2 s =>
    obtain ⟨b, there, hb⟩ := h.peek_cons
    rw [afterQuote_eq there, if_neg (by rw [Text.eq_byte_iff (by decide) hb]; decide),
      if_pos ((Text.eq_byte_iff (by decide) hb).2 rfl), afterQuote]
    exact h.next (by decide)
  | case3 =>
    obtain ⟨b, there, hb⟩ := h.peek_cons
    have stop := (h.next (by decide)).length_eq
    rw [afterQuote_eq there, if_pos ((Text.eq_byte_iff (by decide) hb).2 rfl), afterQuote]
    exact (meet_afterQuote_end (by omega)).bind_pure_left fun _ => rfl
  | case4 c s ih => exact meet_afterQuote_slash h fun q hq => ih hq
  | case5 c s quote escaped slash ih =>
    have notSlash : c ≠ '\\' := by
      rintro rfl
      cases s with
      | nil => exact escaped rfl rfl
      | cons d s => exact slash d s rfl rfl
    rw [afterQuote]
    · refine Meet.map_right (meet_afterQuote_of_over h.over (fun b hb => ?_) (ih ?_)) fun _ => rfl
      · rw [ne_eq, ne_eq, Text.eq_byte_iff (by decide) hb, Text.eq_byte_iff (by decide) hb]
        exact ⟨notSlash, quote⟩
      · rw [String.length_utf8EncodeChar]
        exact h.pass
    all_goals assumption

theorem meet_skipLiteral (h : At text pos s) :
    Meet text path (Cursor.skipLiteral text path pos) (skipLiteral s) :=
  Agree.bind (meet_expect path (by decide) h) fun _ _ _ hq =>
    Agree.bind (meet_afterQuote hq) fun _ _ _ hr => hr

theorem meet_skipColon (h : At text pos s) :
    Meet text path (Cursor.skipColon text path pos) (skipColon s) :=
  Agree.bind (meet_expect path (by decide) (at_skipSpace h)) fun _ _ _ hq => at_skipSpace hq

/-- A name is passed with its colon, in a record only. -/
theorem meet_skipName (k : Container) (h : At text pos s) :
    Meet text path (Cursor.skipName text path k pos) (skipName k s) := by
  cases k with
  | list => exact h
  | record =>
    exact Agree.bind (meet_skipLiteral h) fun _ _ _ hq =>
      Agree.bind (meet_skipColon hq) fun _ _ _ hr => hr

/-! ### Separators -/

/-- What the cursor does behind an entry agrees with what is made of the text there, if it does so
    where the text ends, behind a comma, behind the closing bracket, and at anything else. -/
theorem agree_behind {α β : Type} {R : α → β → Prop} {close : Char} {missing : Nat → LocateError}
    {v : Cursor.Ahead text pos} {more closed : Cursor.Ahead text pos → Except LocateError α}
    {f : Except Snag β} (ascii : close.toNat < 128) (h : At text v.val s)
    (atEnd : skipSpace s = [] → ∀ q, At text q [] → Agree text path R (.error (missing q)) f)
    (atComma : ∀ t, skipSpace s = ',' :: t →
      ∀ r : Cursor.Ahead text pos, At text r.val (skipSpace t) → Agree text path R (more r) f)
    (atClose : ∀ t, skipSpace s = close :: t → close ≠ ',' →
      ∀ r : Cursor.Ahead text pos, At text r.val t → Agree text path R (closed r) f)
    (atOther : ∀ c t, skipSpace s = c :: t → c ≠ ',' → c ≠ close → f = .error (.unexpected c t)) :
    Agree text path R (Cursor.behind text path close missing v more closed) f := by
  have spaced : At text v.skipSpace.val (skipSpace s) := at_skipSpace h
  rw [Cursor.behind]
  split
  · next none' =>
    have stop := spaced.eq_nil_of_peek none'
    exact atEnd stop _ (stop ▸ spaced)
  · next b there =>
    obtain ⟨c, t, first, hb⟩ := spaced.exists_of_peek there
    rw [first] at spaced
    have comma := Text.eq_byte_iff (show ','.toNat < 128 by decide) hb
    have closing := Text.eq_byte_iff ascii hb
    by_cases hc : c = ','
    · subst hc
      rw [if_pos (comma.2 rfl)]
      exact atComma t first _ (at_skipSpace (spaced.next (by decide)))
    rw [if_neg (hc ∘ comma.1)]
    by_cases hc' : c = close
    · subst hc'
      rw [if_pos (closing.2 rfl)]
      exact atClose t first hc _ (spaced.next ascii)
    · rw [if_neg (hc' ∘ closing.1), atOther c t first hc hc']
      exact agree_unexpected spaced

/-! ### Values -/

/-- Wherever the cursor has that part of the text before it, both walks pass over it alike. -/
def Part.Agrees (text : List Char) (path : Path) : Part → List Char → Prop
  | .value,      s => ∀ pos, At text pos s →
    Meet text path (Cursor.skipValue text path pos) (skipValue s)
  | .contents k, s => ∀ pos, At text pos (k.opening :: s) →
    Meet text path (Cursor.skipContainer text path k pos) (skipContainer k s)
  | .entries k,  s => ∀ pos, At text pos s →
    Meet text path (Cursor.skipEntries text path k pos) (skipEntries k s)

theorem ascii_opening (k : Container) : k.opening.toNat < 128 := by cases k <;> decide

theorem ascii_close (k : Container) : k.close.toNat < 128 := by cases k <;> decide

namespace Part

/-- A container is its opening bracket and its contents. -/
theorem agrees_container (k : Container) (s : List Char) (h : (contents k).Agrees text path s) :
    value.Agrees text path (k.opening :: s) := by
  intro pos here
  obtain ⟨b, there, hb⟩ := here.peek_cons
  have is (w : Char) (ascii : w.toNat < 128) : b = byte w ↔ k.opening = w :=
    Text.eq_byte_iff ascii hb
  have inside := h pos here
  rw [Cursor.skipValue, there]
  cases k with
  | list =>
    rw [Container.opening, skipValue]
    simp only [is _ (show '{'.toNat < 128 by decide), is _ (show '['.toNat < 128 by decide)]
    exact inside.bind_pure_right fun _ => rfl
  | record =>
    rw [Container.opening, skipValue]
    simp only [is _ (show '{'.toNat < 128 by decide)]
    exact inside.bind_pure_right fun _ => rfl

theorem agrees_literal (s : List Char) : value.Agrees text path ('"' :: s) := by
  intro pos here
  obtain ⟨b, there, hb⟩ := here.peek_cons
  obtain ⟨q, expected, behind⟩ := exists_of_expect path here (by decide)
  have is (w : Char) (ascii : w.toNat < 128) : b = byte w ↔ '"' = w := Text.eq_byte_iff ascii hb
  rw [Cursor.skipValue, there, skipValue]
  simp only [is _ (show '{'.toNat < 128 by decide), is _ (show '['.toNat < 128 by decide),
    is _ (show '"'.toNat < 128 by decide)]
  simp only [Char.reduceEq, if_false, if_true]
  rw [Cursor.skipLiteral, expected]
  show Meet text path (Cursor.afterQuote text path q.val >>= fun r => pure (q.trans r))
    ((afterQuote s).map (Rest.tail '"' s).trans)
  exact Meet.bind_pure_left (Meet.map_right (meet_afterQuote behind) fun _ => rfl) fun _ => rfl

theorem agrees_scalar (s : List Char) (brace : ∀ t, s = '{' :: t → False)
    (bracket : ∀ t, s = '[' :: t → False) (quote : ∀ t, s = '"' :: t → False) :
    value.Agrees text path s := by
  intro pos here
  have passed : skipValue s = skipScalar s := by
    rw [skipValue]
    · exact brace
    · exact bracket
    · exact quote
  rw [Cursor.skipValue, passed]
  cases s with
  | nil =>
    rw [here.peek_nil]
    exact agree_ended here.length_eq.le
  | cons c s =>
    obtain ⟨b, there, hb⟩ := here.peek_cons
    have other {w : Char} (ascii : w.toNat < 128) (h : ∀ t, c :: s = w :: t → False) :
        b ≠ byte w := by
      intro same
      rw [(Text.eq_byte_iff ascii hb).1 same] at h
      exact h s rfl
    rw [there]
    simp only [if_neg (other (by decide) brace), if_neg (other (by decide) bracket),
      if_neg (other (by decide) quote)]
    exact meet_skipScalar here

/-- One entry, and what is behind it. -/
theorem agrees_entries (k : Container) (s : List Char)
    (hv : ∀ n : Remainder s, value.Agrees text path n.val)
    (others : ∀ (n : Remainder s) (v : Rest n.val) (t : List Char), skipSpace v.val = ',' :: t →
      (entries k).Agrees text path (skipSpace t)) : (entries k).Agrees text path s := by
  intro pos here
  rw [Cursor.skipEntries, skipEntries]
  refine Agree.bind (meet_skipName k here) fun n n' _ hn => ?_
  refine Agree.bind (hv n' n.val hn) fun v v' _ hv => ?_
  refine agree_behind (ascii_close k) hv (fun nil q hq => ?_) (fun t first r hr => ?_)
    (fun t first notComma r hr => ?_) (fun c t first notComma notClosed => ?_)
  · split <;> rename_i e <;> cases nil.symm.trans e
    exact agree_ended hq.length_eq.le
  · split <;> rename_i e <;> cases first.symm.trans e
    · exact Meet.bind_pure_left (Meet.bind_pure_right (others n' v' t first _ hr) fun _ => rfl)
        fun _ => rfl
    · contradiction
  · split <;> rename_i e
    · cases first.symm.trans e
    · exact absurd (List.cons.inj (first.symm.trans e)).1 notComma
    · cases first.symm.trans e
      rw [if_pos rfl]
      exact hr
  · split <;> rename_i e <;> cases first.symm.trans e
    · contradiction
    · rw [if_neg notClosed]

theorem skipEntries_nil (k : Container) : skipEntries k [] = .error .ended := by
  have noValue : skipValue [] = .error .ended := by
    rw [skipValue, skipScalar] <;> simp
  cases k with
  | list => rw [skipEntries, skipName]; simp [bind, Except.bind, noValue, Json.Remainder.all]
  | record =>
    rw [skipEntries]
    rfl

theorem meet_skipEntries_end {Q : List Char → Prop} (k : Container) (h : At text pos []) :
    Meet text path (Cursor.skipEntries text path k pos)
      (.error .ended : Except Snag {r : List Char // Q r}) := by
  have noText (n : Remainder []) : n.val = [] :=
    List.eq_nil_of_length_eq_zero (Nat.le_zero.1 n.property)
  have met : (entries k).Agrees text path [] := by
    refine agrees_entries k [] (fun n => ?_) fun n v => ?_
    · rw [noText n]
      exact agrees_scalar [] (by simp) (by simp) (by simp)
    · exact absurd (Nat.lt_of_lt_of_le v.property n.property) (Nat.not_lt_zero _)
  have stops := met pos h
  rw [skipEntries_nil] at stops
  exact stops.error

/-- The contents are closed at once, or they are entries. -/
theorem agrees_contents (k : Container) (s : List Char)
    (h : ∀ c t, skipSpace s = c :: t → ¬ c = k.close → (entries k).Agrees text path (c :: t)) :
    (contents k).Agrees text path s := by
  intro pos here
  obtain ⟨q, expected, behind⟩ := exists_of_expect path here (ascii_opening k)
  have spaced : At text q.skipSpace.val (skipSpace s) := at_skipSpace behind
  rw [Cursor.skipContainer, expected]
  show Meet text path (if h : Cursor.peek text q.skipSpace.val = some (byte k.close) then
    _ else _) _
  by_cases close : Cursor.peek text q.skipSpace.val = some (byte k.close)
  · obtain ⟨c, t, first, hb⟩ := spaced.exists_of_peek close
    obtain rfl := (Text.eq_byte_iff (ascii_close k) hb).1 rfl
    rw [first] at spaced
    rw [dif_pos close]
    unfold skipContainer
    split <;> rename_i e <;> cases first.symm.trans e
    rw [if_pos rfl]
    exact spaced.next (ascii_close k)
  · rw [dif_neg close]
    refine Meet.bind_pure_left ?_ fun _ => rfl
    unfold skipContainer
    split
    · next nil => exact meet_skipEntries_end k (nil ▸ spaced)
    · next c t first =>
      rw [first] at spaced
      have notClosed : c ≠ k.close := by
        rintro rfl
        obtain ⟨b, there, hb⟩ := spaced.peek_cons
        rw [(Text.eq_byte_iff (ascii_close k) hb).2 rfl] at there
        exact close there
      rw [if_neg notClosed]
      exact Meet.bind_pure_right (h c t first notClosed _ spaced) fun _ => rfl

end Part

/-- Both walks pass over a value alike, or stop alike within it. -/
theorem meet_skipValue (h : At text pos s) :
    Meet text path (Cursor.skipValue text path pos) (skipValue s) :=
  Part.induction Part.agrees_container Part.agrees_literal Part.agrees_scalar
    Part.agrees_contents Part.agrees_entries .value s pos h

/-! ### Steps -/

/-- What was read and where the cursor is then. -/
def ReadAlike (text : List Char) {P : Nat → Prop} {Q : List Char → Prop}
    (x : String × {q : Nat // P q}) (y : String × {r : List Char // Q r}) : Prop :=
  x.1 = y.1 ∧ At text x.2.val y.2.val

/-- Both read a name from the same literal. -/
theorem agree_readName (h : At text pos s) :
    Agree text path (ReadAlike text) (Cursor.readName text path pos) (readName s) := by
  rw [Cursor.readName, readName]
  refine Agree.bind (meet_skipLiteral h) fun q r passed hq => ?_
  obtain ⟨r, left⟩ := r
  obtain ⟨u, hu, rfl⟩ := leaves_skipLiteral_iff.1 ⟨left, passed⟩
  have cut : ('"' :: (u ++ r)).take (('"' :: (u ++ r)).length - r.length) = '"' :: u :=
    take_append ('"' :: u) r
  have cut' : Text.slice? text pos q.val = some ('"' :: u) := h.slice?_eq hq
  rw [cut', Option.getD_some]
  simp only [cut]
  cases read : literal? ('"' :: u) with
  | ok name => exact ⟨rfl, hq⟩
  | error reason =>
    have reported : LocateError.invalidString pos reason =
        (Snag.invalidName ('"' :: (u ++ r)) reason).toError text path := by
      rw [Snag.toError, h.offsetOf_eq]
    exact ⟨reported, h.suffix, u, r, hu, rfl, read⟩

/-- The cursor is at the start and at the value of the place. -/
def SamePlace (text : List Char) (x : Nat × Nat) (p : Place) : Prop :=
  At text x.1 p.start ∧ At text x.2 p.value

/-- Both look for a member in the same order, so they find the first of the name or come to the same
    end. -/
theorem agree_seekMember {name : String} (h : At text pos s) :
    Agree text path (Option.Rel (SamePlace text)) (Cursor.seekMember text path name pos)
      (seekMember name s) := by
  induction s using seekMember.induct generalizing pos with
  | _ s ih =>
    rw [Cursor.seekMember, seekMember]
    refine Agree.bind (agree_readName h) fun x y _ alike => ?_
    obtain ⟨found, n⟩ := x
    obtain ⟨found', n'⟩ := y
    obtain ⟨rfl, hn⟩ : found = found' ∧ At text n.val n'.val := alike
    refine Agree.bind (meet_skipColon hn) fun v v' _ hv => ?_
    simp only
    split
    · exact .some ⟨h, hv⟩
    refine Agree.bind (meet_skipValue hv) fun e e' _ he => ?_
    refine agree_behind (by decide) he (fun nil q hq => ?_) (fun t first r hr => ?_)
      (fun t first _ r hr => ?_) (fun c t first notComma notClosed => ?_)
    · split <;> rename_i e <;> cases nil.symm.trans e
      exact agree_unexpected_end hq
    · split <;> rename_i e <;> cases first.symm.trans e
      · exact ih n' v' e' t first hr
      · contradiction
    · split <;> rename_i e <;> cases first.symm.trans e
      · exact .none
      · contradiction
    · split <;> rename_i e <;> cases first.symm.trans e
      · contradiction
      · contradiction
      · rfl

theorem agree_seekItem (i : Nat) (h : At text pos s) :
    Agree text path (Option.Rel (SamePlace text)) (Cursor.seekItem text path i pos)
      (seekItem i s) := by
  induction i generalizing s pos with
  | zero =>
    rw [Cursor.seekItem]
    exact .some ⟨h, h⟩
  | succ i ih =>
    rw [Cursor.seekItem, seekItem]
    refine Agree.bind (meet_skipValue h) fun e e' _ he => ?_
    refine agree_behind (by decide) he (fun nil q hq => ?_) (fun t first r hr => ?_)
      (fun t first _ r hr => ?_) (fun c t first notComma notClosed => ?_)
    · rw [nil]
      exact agree_unexpected_end hq
    · rw [first]
      exact ih hr
    · rw [first]
      exact .none
    · split <;> rename_i e <;> cases first.symm.trans e
      · contradiction
      · contradiction
      · rfl

theorem agree_seek (step : Segment) (h : At text pos s) :
    Agree text path (Option.Rel (SamePlace text)) (Cursor.seek text path step pos)
      (seek step s) := by
  cases step with
  | key name => exact agree_seekMember h
  | index i => exact agree_seekItem i h

/-- A step down from one place leads both walks to one place. -/
theorem agree_enter (step : Segment) (h : At text pos s) :
    Agree text path (Option.Rel (SamePlace text)) (Cursor.enter text path step pos)
      (enter step s) := by
  have opening := h.peek_eq_iff (ascii_opening step.container)
  rw [Cursor.enter]
  by_cases there : Cursor.peek text pos = some (byte step.container.opening)
  · rw [if_pos there]
    obtain ⟨t, rfl⟩ := opening.1 there
    obtain ⟨q, expected, behind⟩ := exists_of_expect path h (ascii_opening step.container)
    have spaced : At text q.skipSpace.val (skipSpace t) := at_skipSpace behind
    have closing := spaced.peek_eq_iff (ascii_close step.container)
    rw [expected]
    show Agree text path _ (if Cursor.peek text q.skipSpace.val = some (byte step.container.close)
      then _ else _) _
    by_cases close : Cursor.peek text q.skipSpace.val = some (byte step.container.close)
    · obtain ⟨u, close'⟩ := closing.1 close
      rw [if_pos close, enter_closed close']
      exact .none
    · rw [if_neg close, enter_opening fun u hu => close (closing.2 ⟨u, hu⟩)]
      exact agree_seek step spaced
  · rw [if_neg there, enter_other fun t ht => there (opening.2 ⟨t, ht⟩)]
    exact .none

/-- Step by step both walks go down the path together. -/
theorem agree_descend (q : Path) {x : Nat × Nat} {p : Place} (h : SamePlace text x p) :
    Agree text path (Option.Rel (SamePlace text)) (Cursor.descend text path q x) (descend q p) := by
  induction q generalizing x p with
  | nil => exact .some h
  | cons step q ih =>
    refine Agree.bind (agree_enter step h.2) fun found found' _ same => ?_
    cases same with
    | none => exact .none
    | some here => exact ih here

/-! ### Whole texts -/

theorem at_zero (text : List Char) : At text 0 text := ⟨[], rfl, rfl⟩

theorem agree_span {x : Nat × Nat} {p : Place} (h : SamePlace text x p) :
    Agree text path (fun q s => (x.1, q.val) = (s.start, s.stop))
      (Cursor.skipValue text path x.2) (p.span text) := by
  rw [Place.span, ← bind_pure (Cursor.skipValue text path x.2)]
  refine Agree.bind (meet_skipValue h.2) fun q e _ hq => ?_
  exact Prod.ext h.1.offsetOf_eq.symm hq.offsetOf_eq.symm

/-- The two searches agree on any text and any path. -/
theorem agree_find (text : List Char) (path : Path) :
    Agree text path (Option.Rel fun x s => x = (s.start, s.stop)) (Cursor.find text path)
      (walk text path) := by
  have root := at_skipSpace (at_zero text)
  refine Agree.bind (agree_descend path ⟨root, root⟩) fun found found' _ same => ?_
  cases same with
  | none => exact .none
  | some here => exact Agree.bind (agree_span here) fun q s _ hq => .some hq

/-- The cursor comes to the start and the end of what is found, and else to the same failure. -/
theorem cursor_find_eq (text : List Char) (path : Path) :
    Cursor.find text path = (find text path).map (Option.map fun s => (s.start, s.stop)) := by
  have agree := agree_find text path
  rw [find]
  cases walked : walk text path with
  | error snag =>
    cases found : Cursor.find text path <;> rw [walked, found] at agree
    · rw [agree.1]
      rfl
    · exact agree.elim
  | ok s =>
    cases found : Cursor.find text path <;> rw [walked, found] at agree
    · exact agree.elim
    · cases agree with
      | none => rfl
      | some same =>
        rw [same]
        rfl

/-- What the search says where it stops is so. -/
theorem holds_of_walk {snag : Snag} (h : walk text path = .error snag) : snag.Holds text := by
  have agree := agree_find text path
  rw [h] at agree
  cases found : Cursor.find text path <;> rw [found] at agree
  · exact agree.2
  · exact agree.elim

end FlowLint.Locate

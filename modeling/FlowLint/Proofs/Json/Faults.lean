import FlowLint.Proofs.Json.Soundness
import FlowLint.Proofs.Text.Layout

/-!
Where faults are. A reader that fails was somewhere in its text: what it holds for left is an end of
the text, and unless the text was too short, at least one byte was read, and no byte that is not
there.
-/

namespace FlowLint.Json

open Text

/-- The text ended too soon. -/
def SyntaxCause.isEnd : SyntaxCause → Bool
  | .endOfValue | .endOfList | .endOfObject | .endOfString => true
  | _                                                      => false

/-- The fault was noticed in `s`: the bytes that count as read are bytes of `s`, and there are
    some. -/
structure Fault.Within (s : List Char) (f : Fault) : Prop where
  left : f.rest <:+ s
  read : f.cause.isEnd = false →
    f.ahead ≤ byteLength f.rest ∧ byteLength f.rest < byteLength s + f.ahead

namespace Fault.Within

variable {s t r : List Char} {f : Fault} {cause : SyntaxCause} {c : Char}

/-- A fault in an end of the text is one in the text. -/
theorem mono (h : f.Within t) (ht : t <:+ s) : f.Within s where
  left     := h.left.trans ht
  read end_ := by
    have shorter := byteLength_le_of_suffix ht
    obtain ⟨there, some⟩ := h.read end_
    omega

/-- The text ended. -/
theorem ended (h : cause.isEnd) (s : List Char) (n : Nat) : Fault.Within s ⟨cause, [], n⟩ where
  left      := s.nil_suffix
  read other := by rw [h] at other; cases other

/-- The next byte is there. -/
theorem next (cause : SyntaxCause) (h : c :: r <:+ s) : (onNext cause (c :: r)).Within s where
  left   := h
  read _ := by
    have pos := byteLength_pos c r
    have shorter := byteLength_le_of_suffix h
    simp only [onNext]
    omega

/-- Something was read. -/
theorem past (cause : SyntaxCause) (h : r <:+ s) (shorter : r.length < s.length) :
    (before cause r).Within s where
  left   := h
  read _ := by
    obtain ⟨u, rfl⟩ := h
    cases u with
    | nil => simp at shorter
    | cons c u =>
      have pos := byteLength_pos c u
      simp only [before, byteLength_append]
      omega

end Fault.Within

/-- The reading of `s` leaves an end of `s`, or fails within `s`. -/
def Stays {α : Type} {P : List Char → Prop} (s : List Char)
    (reading : Except Fault (α × {r : List Char // P r})) : Prop :=
  match reading with
  | .ok x    => x.2.val <:+ s
  | .error f => f.Within s

namespace Stays

variable {α β : Type} {P Q : List Char → Prop} {s t : List Char}

theorem error {f : Fault} (h : f.Within s) :
    Stays s (.error f : Except Fault (α × {r : List Char // P r})) := h

theorem ok {x : α × {r : List Char // P r}} (h : x.2.val <:+ s) : Stays s (.ok x) := h

theorem mono {e : Except Fault (α × {r : List Char // P r})} (h : Stays t e) (ht : t <:+ s) :
    Stays s e := by
  cases e with
  | error f => exact Fault.Within.mono h ht
  | ok x => exact List.IsSuffix.trans h ht

/-- A reading that goes on where another one stopped. -/
theorem bind {e : Except Fault (α × {r : List Char // P r})}
    {f : α × {r : List Char // P r} → Except Fault (β × {r : List Char // Q r})}
    (he : Stays s e)
    (hf : ∀ a r (h : P r), e = .ok (a, ⟨r, h⟩) → r <:+ s → Stays s (f (a, ⟨r, h⟩))) :
    Stays s (e >>= f) := by
  cases e with
  | error g => exact he
  | ok x => exact hf x.1 x.2.val x.2.property rfl he

theorem map {e : Except Fault (α × {r : List Char // P r})}
    {f : α × {r : List Char // P r} → β × {r : List Char // Q r}}
    (he : Stays s e) (hf : ∀ x, (f x).2.val = x.2.val) : Stays s (e.map f) := by
  cases e with
  | error g => exact he
  | ok x =>
    have rest : x.2.val <:+ s := he
    rw [← hf x] at rest
    exact rest

end Stays

/-! ### Literals -/

namespace Literal

variable {s : List Char}

/-- Four digits are missing because the text ends within them, or because they are there and are
    none. -/
theorem within_codeFault (s : List Char) : (codeFault s).Within s := by
  rw [codeFault]
  split
  · exact .ended rfl s 0
  · next enough =>
    refine ⟨List.suffix_rfl, fun _ => ?_⟩
    have cut := byteLength_append (s.take 4) (s.drop 4)
    rw [List.take_append_drop] at cut
    simp only
    omega

theorem stays_readCode (s : List Char) : Stays s (readCode s) := by
  unfold readCode
  split
  · next a b c d s =>
    split
    · exact .ok (List.suffix_append [a, b, c, d] s)
    · exact .error (within_codeFault _)
  · exact .error (within_codeFault _)

theorem stays_readTrailing (s : List Char) : Stays s (readTrailing s) := by
  unfold readTrailing
  split
  · next s =>
    have inner : s <:+ '\\' :: 'u' :: s := List.suffix_append ['\\', 'u'] s
    refine .bind ((stays_readCode s).mono inner) fun n r h _ hr => ?_
    simp only
    split
    · exact .ok hr
    · exact .error (.past _ hr (by simp only [List.length_cons]; omega))
  · next c s _ => exact .error (.next _ (List.suffix_cons '\\' (c :: s)))
  · exact .error (.ended rfl _ 0)
  · exact .error (.next _ List.suffix_rfl)
  · exact .error (.ended rfl _ 0)

theorem stays_readCodePoint (s : List Char) : Stays s (readCodePoint s) := by
  refine .bind (stays_readCode s) fun n r h _ hr => ?_
  simp only
  split
  · exact .error (.past _ hr h)
  · split
    · exact .bind ((stays_readTrailing r).mono hr) fun m t _ _ ht => .ok ht
    · exact .ok hr

theorem stays_readEscape {coded : Reader Char} (hcoded : ∀ s, Stays s (coded s)) (s : List Char) :
    Stays s (readEscape coded s) := by
  unfold readEscape
  split
  · exact .error (.ended rfl _ 0)
  · next s => exact .map ((hcoded s).mono (List.suffix_cons 'u' s)) fun _ => rfl
  · next e s _ =>
    split
    · exact .ok (List.suffix_cons e s)
    · exact .error (.next _ List.suffix_rfl)

theorem stays_readBody {coded : Reader Char} (hcoded : ∀ s, Stays s (coded s)) (s : List Char) :
    Stays s (readBody coded s) := by
  fun_induction readBody coded s with
  | case1 => exact .error (.ended rfl _ 0)
  | case2 s => exact .ok (List.suffix_cons '"' s)
  | case3 s ih =>
    have escape := (stays_readEscape hcoded s).mono (List.suffix_cons '\\' s)
    refine .bind escape fun c r h _ hr => ?_
    exact .bind ((ih ⟨r, h⟩).mono hr) fun cs t _ _ ht => .ok ht
  | case4 c s => exact .error (.next _ List.suffix_rfl)
  | case5 c s _ _ _ ih => exact .bind (ih.mono (List.suffix_cons c s)) fun cs t _ _ ht => .ok ht

theorem stays_read (s : List Char) : Stays s (read s) :=
  .bind (stays_readBody stays_readCodePoint s) fun _ _ _ _ hr => .ok hr

end Literal

/-! ### Numbers -/

namespace Numeral

theorem digitRun_suffix (s : List Char) : (Decimal.digitRun s).2 <:+ s := List.dropWhile_suffix _

theorem stays_readWhole (s : List Char) : Stays s (readWhole s) := by
  unfold readWhole
  split
  · exact .error (.ended rfl _ 0)
  · next s =>
    split
    · exact .ok (List.suffix_cons '0' [])
    · next c r =>
      split
      · exact .error (.next _ (List.suffix_cons '0' (c :: r)))
      · exact .ok (List.suffix_cons '0' (c :: r))
  · next c s _ =>
    split
    · exact .ok ((digitRun_suffix s).trans (List.suffix_cons c s))
    · exact .error (.next _ List.suffix_rfl)

theorem stays_readFraction (s : List Char) : Stays s (readFraction s) := by
  unfold readFraction
  split
  · next r =>
    split
    · cases r with
      | nil => exact .error (.ended rfl _ 1)
      | cons c r => exact .error (.next _ (List.suffix_cons '.' (c :: r)))
    · next run _ =>
      have left := digitRun_suffix r
      rw [run] at left
      exact .ok (left.trans (List.suffix_cons '.' r))
  · exact .ok List.suffix_rfl

theorem stays_readExponentDigits (s : List Char) : Stays s (readExponentDigits s) := by
  unfold readExponentDigits
  split
  · exact .error (.ended rfl _ 0)
  · next c s =>
    split
    · exact .ok ((digitRun_suffix s).trans (List.suffix_cons c s))
    · exact .error (.next _ List.suffix_rfl)

theorem stays_readExponent (s : List Char) : Stays s (readExponent s) := by
  unfold readExponent
  split
  · exact .ok List.suffix_rfl
  · next c r =>
    split
    · split
      · next t =>
        have digits := (stays_readExponentDigits t).mono (List.suffix_append [c, '-'] t)
        exact .map digits fun _ => rfl
      · next t =>
        have digits := (stays_readExponentDigits t).mono (List.suffix_append [c, '+'] t)
        exact .map digits fun _ => rfl
      · exact .map ((stays_readExponentDigits r).mono (List.suffix_cons c r)) fun _ => rfl
    · exact .ok List.suffix_rfl

theorem stays_readUnsigned (negative : Bool) (s : List Char) :
    Stays s (readUnsigned negative s) := by
  refine .bind (stays_readWhole s) fun whole r _ _ hr => ?_
  refine .bind ((stays_readFraction r).mono hr) fun fraction t _ _ ht => ?_
  exact .bind ((stays_readExponent t).mono ht) fun exponent u _ _ hu => .ok hu

theorem stays_read (s : List Char) : Stays s (read s) := by
  unfold read
  split
  · next s =>
    exact .map ((stays_readUnsigned true s).mono (List.suffix_cons '-' s)) fun _ => rfl
  · exact stays_readUnsigned false _

/-- The digits that do not fit are the last ones. -/
theorem gather_suffix (bound n : Nat) (ds : List Char) : (gather bound n ds).2 <:+ ds := by
  induction ds generalizing n with
  | nil => exact List.suffix_rfl
  | cons d ds ih =>
    rw [gather]
    split
    · exact List.suffix_rfl
    · exact (ih _).trans (List.suffix_cons d ds)

theorem exists_of_exponentExcess? {ds excess : List Char} (h : exponentExcess? ds = some excess) :
    ∃ d, d :: excess <:+ ds := by
  have last := gather_suffix maxExponent 0 ds
  rw [exponentExcess?] at h
  cases left : (gather maxExponent 0 ds).2 with
  | nil => rw [left] at h; cases h
  | cons d e =>
    rw [left] at h last
    cases h
    exact ⟨d, last⟩

/-- A number ends with the digits of its exponent, if it has one. -/
theorem Spelled.exponent_suffix {t : List Char} {n : Numeral} {down : Bool} {ds : List Char}
    (h : n.Spelled t) (he : n.exponent = some (down, ds)) : ds <:+ t := by
  have unsigned {t : List Char} (h : Unsigned t n) : ds <:+ t := by
    obtain ⟨f, e, -, -, exponent, rfl⟩ := h
    rw [he] at exponent
    have last : ds <:+ e := by
      cases exponent with
      | plain _ _ => exact List.suffix_append [_] ds
      | up _ _ => exact List.suffix_append [_, '+'] ds
      | down _ _ => exact List.suffix_append [_, '-'] ds
    exact last.trans ((List.suffix_append f e).trans (List.suffix_append n.whole (f ++ e)))
  cases h with
  | plain _ h => exact unsigned h
  | minus _ h => exact (unsigned h).trans (List.suffix_cons '-' _)

/-- A number that is too large is noticed in its exponent or at its end. -/
theorem within_value {t r : List Char} {n : Numeral} {f : Fault} (h : n.Spelled t)
    (hf : n.value r = .error f) : f.Within (t ++ r) := by
  have past {e : List Char} (he : e <:+ t) (shorter : e.length < t.length) :
      (Fault.before .numberOutOfRange (e ++ r)).Within (t ++ r) := by
    refine .past _ ?_ (by simp only [List.length_append]; omega)
    obtain ⟨u, rfl⟩ := he
    rw [List.append_assoc]
    exact List.suffix_append u (e ++ r)
  have some : 0 < t.length := by
    obtain ⟨c, u, rfl, -⟩ := h.exists_cons
    exact Nat.succ_pos _
  simp only [value] at hf
  split at hf
  · split at hf
    · cases hf
    · split at hf <;> cases hf
  · simp only [toFloat] at hf
    split at hf
    · next excess found =>
      split at hf
      · cases hf
        obtain ⟨d, last⟩ := exists_of_exponentExcess? found
        have ending : d :: excess <:+ t := by
          cases he : n.exponent with
          | none =>
            rw [he] at last
            cases List.suffix_nil.1 last
          | some e =>
            rw [he] at last
            exact last.trans (h.exponent_suffix he)
        have shorter := ending.length_le
        rw [List.length_cons] at shorter
        exact past ((List.suffix_cons d excess).trans ending) (by omega)
      · cases hf
    · split at hf
      · cases hf
      · cases hf
        exact past (e := []) t.nil_suffix some

end Numeral

/-! ### Values -/

variable {s r : List Char} {c : Char}

theorem skipBlank_suffix (s : List Char) : skipBlank s <:+ s := List.dropWhile_suffix _

/-- The next token stands in the text. -/
theorem token_suffix (h : skipBlank s = c :: r) : c :: r <:+ s := h ▸ skipBlank_suffix s

theorem afterToken_suffix (h : skipBlank s = c :: r) : r <:+ s :=
  (List.suffix_cons c r).trans (token_suffix h)

theorem within_readWord {w : List Char} {f : Fault} (h : readWord w s = .error f) :
    f.Within s := by
  induction w generalizing s with
  | nil => cases h
  | cons c w ih =>
    cases s with
    | nil =>
      cases h
      exact .ended rfl [] 0
    | cons d s =>
      rw [readWord] at h
      split at h
      · cases e : readWord w s with
        | error g =>
          rw [e] at h
          cases h
          exact (ih e).mono (List.suffix_cons d s)
        | ok t =>
          rw [e] at h
          cases h
      · cases h
        exact .next _ List.suffix_rfl

theorem stays_readWord (hs : skipBlank s = c :: r) (w : List Char) (v : Json) :
    Stays s ((readWord w r).map fun t => (v, Rest.ofWord hs t)) := by
  cases e : readWord w r with
  | error f => exact .error ((within_readWord e).mono (afterToken_suffix hs))
  | ok t =>
    have word : r = w ++ t.val := readWord_eq_ok.1 ⟨t.property, e⟩
    have left : t.val <:+ r := ⟨w, word.symm⟩
    exact .ok (left.trans (afterToken_suffix hs))

section

variable {read : Reader Json} (hread : ∀ s, Stays s (read s))
include hread

theorem stays_readMoreItems (s : List Char) : Stays s (readMoreItems read s) := by
  fun_induction readMoreItems read s with
  | case1 s _ => exact .error (.ended rfl s 1)
  | case2 s t hs => exact .ok (afterToken_suffix hs)
  | case3 s t hs _ => exact .error (.ended rfl s 1)
  | case4 s t hs u hu =>
    exact .error (.next _ ((token_suffix hu).trans (afterToken_suffix hs)))
  | case5 s t hs _ _ ih =>
    refine .bind ((hread t).mono (afterToken_suffix hs)) fun v u hu _ left => ?_
    exact .bind ((ih ⟨u, hu⟩).mono left) fun vs w _ _ hw => .ok hw
  | case6 s c t _ _ hs => exact .error (.next _ (token_suffix hs))

theorem stays_readItems (s : List Char) : Stays s (readItems read s) := by
  unfold readItems
  split
  · exact .error (.ended rfl s 1)
  · next t hs => exact .ok (afterToken_suffix hs)
  · refine .bind (hread s) fun v t _ _ ht => ?_
    exact .bind ((stays_readMoreItems hread t).mono ht) fun vs u _ _ hu => .ok hu

theorem stays_readMember (s : List Char) :
    Stays s (readMember Literal.read (fun _ => read) s) := by
  refine .bind (Literal.stays_read s) fun k r _ _ hr => ?_
  simp only
  split
  · exact .error (.ended rfl s 1)
  · next t hs =>
    exact .bind ((hread t).mono ((afterToken_suffix hs).trans hr)) fun v u _ _ hu => .ok hu
  · next c t _ hs => exact .error (.next _ ((token_suffix hs).trans hr))

theorem stays_readMoreMembers (s : List Char) :
    Stays s (readMoreMembers Literal.read (fun _ => read) s) := by
  fun_induction readMoreMembers Literal.read (fun _ => read) s with
  | case1 s _ => exact .error (.ended rfl s 1)
  | case2 s t hs => exact .ok (afterToken_suffix hs)
  | case3 s t hs _ => exact .error (.ended rfl s 1)
  | case4 s t hs u hu ih =>
    have inner := (afterToken_suffix hu).trans (afterToken_suffix hs)
    refine .bind ((stays_readMember hread u).mono inner) fun m w hw _ left => ?_
    exact .bind ((ih ⟨w, hw⟩).mono left) fun ms x _ _ hx => .ok hx
  | case5 s t hs u hu =>
    exact .error (.next _ ((token_suffix hu).trans (afterToken_suffix hs)))
  | case6 s t hs c u _ _ hu =>
    exact .error (.next _ ((token_suffix hu).trans (afterToken_suffix hs)))
  | case7 s c t _ _ hs => exact .error (.next _ (token_suffix hs))

theorem stays_readMembers (s : List Char) :
    Stays s (readMembers Literal.read (fun _ => read) s) := by
  unfold readMembers
  split
  · exact .error (.ended rfl s 1)
  · next t hs => exact .ok (afterToken_suffix hs)
  · next t hs =>
    refine .bind ((stays_readMember hread t).mono (afterToken_suffix hs)) fun m u _ _ left => ?_
    exact .bind ((stays_readMoreMembers hread u).mono left) fun ms w _ _ hw => .ok hw
  · next c t _ _ hs => exact .error (.next _ (token_suffix hs))

end

theorem stays_readNumber (hs : skipBlank s = c :: r) : Stays s (do
    let (n, t) ← Numeral.read (c :: r)
    let v ← treeBuilder.number n t.val
    return (v, (⟨t.val, by have := length_skipBlank_le s; grind⟩ : Rest s))) := by
  refine .bind ((Numeral.stays_read (c :: r)).mono (token_suffix hs)) fun n t ht e left => ?_
  obtain ⟨spelled, hn, text⟩ := Numeral.spelled_of_yields (.intro e)
  simp only [treeBuilder]
  cases value : n.value t with
  | error f =>
    refine .error (Fault.Within.mono (Numeral.within_value hn value) ?_)
    exact text ▸ token_suffix hs
  | ok x => exact .ok left

theorem stays_readValueWith {nested : Option (Reader Json)}
    (hnested : ∀ read ∈ nested, ∀ s, Stays s (read s)) (s : List Char) :
    Stays s (readValueWith treeBuilder nested s) := by
  unfold readValueWith
  split
  · exact .error (.ended rfl s 1)
  · next r hs => exact stays_readWord hs _ _
  · next r hs => exact stays_readWord hs _ _
  · next r hs => exact stays_readWord hs _ _
  · next r hs =>
    have text : Stays r (treeBuilder.text r) := .map (Literal.stays_read r) fun _ => rfl
    exact .map (text.mono (afterToken_suffix hs)) fun _ => rfl
  · next r hs =>
    split
    · exact .error (.next _ (token_suffix hs))
    · next read =>
      have items := stays_readItems (hnested read rfl) r
      exact .map (items.mono (afterToken_suffix hs)) fun _ => rfl
  · next r hs =>
    split
    · exact .error (.next _ (token_suffix hs))
    · next read =>
      have members := stays_readMembers (hnested read rfl) r
      exact .map (members.mono (afterToken_suffix hs)) fun _ => rfl
  · next c r _ _ _ _ _ _ hs =>
    split
    · exact stays_readNumber hs
    · exact .error (.next _ (token_suffix hs))

theorem stays_readValue (depth : Nat) (s : List Char) :
    Stays s (readValue treeBuilder depth s) := by
  induction depth generalizing s with
  | zero => exact stays_readValueWith (by simp) s
  | succ depth ih => exact stays_readValueWith (fun read h => by cases h; exact ih) s

/-- A text that is not accepted is at fault at one of its bytes, or too short. -/
theorem within_of_tree? {text : List Char} {f : Fault} (h : tree? text = .error f) :
    f.Within text := by
  have reading := stays_readValue maxDepth text
  rw [tree?, readText, readTree] at h
  cases e : readValue treeBuilder maxDepth text with
  | error g =>
    rw [e] at h reading
    cases h
    exact reading
  | ok x =>
    rw [e] at h reading
    have left : x.2.val <:+ text := reading
    simp only [bind, Except.bind] at h
    split at h
    · cases h
    · next c t hs =>
      cases h
      exact .next _ ((token_suffix hs).trans left)

end FlowLint.Json

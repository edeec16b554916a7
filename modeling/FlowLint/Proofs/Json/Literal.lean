import FlowLint.Json.Literal
import FlowLint.Proofs.Json.Yields

/-!
The grammar of string literals, and that the reader of literals reads just that: it takes the
literal that the text starts with, whatever follows, and gives the characters that it spells.
-/

namespace FlowLint.Json.Literal

/-- What stands after a backslash and the character that it spells. -/
inductive Escape : List Char → Char → Prop
  | letter {e c : Char} (h : ofLetter? e = some c) : Escape [e] c
  | code {a b c d : Char} {n : Nat} (h : code? a b c d = some n)
      (lone : !isLeading n && !isTrailing n) : Escape ['u', a, b, c, d] (.ofNat n)
  | pair {a b c d a' b' c' d' : Char} {m n : Nat} (hm : code? a b c d = some m)
      (lead : isLeading m) (hn : code? a' b' c' d' = some n) (trail : isTrailing n) :
      Escape ['u', a, b, c, d, '\\', 'u', a', b', c', d'] (pairChar m n)

/-- A literal from after its opening quote to its closing quote, and the characters it spells. -/
inductive Body : List Char → List Char → Prop
  | close : Body ['"'] []
  | escape {e s cs : List Char} {c : Char} (h : Escape e c) (more : Body s cs) :
      Body ('\\' :: (e ++ s)) (c :: cs)
  | plain {c : Char} {s cs : List Char} (quote : c ≠ '"') (slash : c ≠ '\\')
      (control : ¬ c.toNat < 0x20) (more : Body s cs) : Body (c :: s) (c :: cs)

/-! ### Escapes -/

/-- Four hex digits make a code. -/
theorem yields_readCode {s r : List Char} {n : Nat} :
    Yields (readCode s) n r ↔ ∃ a b c d, code? a b c d = some n ∧ s = a :: b :: c :: d :: r := by
  constructor
  · intro h
    unfold readCode at h
    split at h
    · next a b c d s =>
      split at h
      · next m hm =>
        obtain ⟨rfl, rfl⟩ : m = n ∧ s = r := by simpa using h
        exact ⟨a, b, c, d, hm, rfl⟩
      · simp at h
    · simp at h
  · rintro ⟨a, b, c, d, hn, rfl⟩
    simp [readCode, hn]

/-- The second half of a pair is an escape of its own. -/
theorem yields_readTrailing {s r : List Char} {n : Nat} :
    Yields (readTrailing s) n r ↔ ∃ a b c d, code? a b c d = some n ∧ isTrailing n ∧
      s = '\\' :: 'u' :: a :: b :: c :: d :: r := by
  constructor
  · intro h
    unfold readTrailing at h
    split at h
    · next s =>
      rw [yields_bind] at h
      obtain ⟨m, t, ht, e, h⟩ := h
      obtain ⟨a, b, c, d, hm, rfl⟩ := yields_readCode.1 (.intro e)
      simp only at h
      split at h
      · next trail =>
        obtain ⟨rfl, rfl⟩ : m = n ∧ t = r := by simpa using h
        exact ⟨a, b, c, d, hm, trail, rfl⟩
      · simp at h
    all_goals simp at h
  · rintro ⟨a, b, c, d, hn, trail, rfl⟩
    obtain ⟨h, e⟩ := (yields_readCode (r := r)).2 ⟨a, b, c, d, hn, rfl⟩
    rw [readTrailing, yields_bind]
    exact ⟨n, r, h, e, by simp [trail]⟩

theorem yields_readCodePoint {s r : List Char} {c : Char} :
    Yields (readCodePoint s) c r ↔ ∃ u, Escape ('u' :: u) c ∧ s = u ++ r := by
  constructor
  · intro h
    unfold readCodePoint at h
    rw [yields_bind] at h
    obtain ⟨m, t, ht, e, h⟩ := h
    obtain ⟨a, b, c, d, hm, rfl⟩ := yields_readCode.1 (.intro e)
    simp only at h
    split at h
    · simp at h
    · next noTrail =>
      split at h
      · next lead =>
        rw [yields_bind] at h
        obtain ⟨n, u, hu, e', h⟩ := h
        obtain ⟨a', b', c', d', hn, trail, rfl⟩ := yields_readTrailing.1 (.intro e')
        obtain ⟨rfl, rfl⟩ : pairChar m n = _ ∧ u = r := by simpa [Rest.trans] using h
        exact ⟨_, .pair hm lead hn trail, rfl⟩
      · next noLead =>
        obtain ⟨rfl, rfl⟩ : Char.ofNat m = _ ∧ t = r := by simpa using h
        exact ⟨_, .code hm (by simp [noLead, noTrail]), rfl⟩
  · rintro ⟨u, hu, rfl⟩
    rw [readCodePoint, yields_bind]
    cases hu with
    | letter h => simp [ofLetter?] at h
    | code hn lone =>
      obtain ⟨h, e⟩ := (yields_readCode (r := r)).2 ⟨_, _, _, _, hn, rfl⟩
      simp only [Bool.and_eq_true, Bool.not_eq_true'] at lone
      exact ⟨_, _, h, e, by simp [lone]⟩
    | @pair _ _ _ _ _ _ _ _ m n hm lead hn trail =>
      obtain ⟨h, e⟩ := (yields_readTrailing (r := r)).2 ⟨_, _, _, _, hn, trail, rfl⟩
      obtain ⟨h', e'⟩ := yields_readCode.2 ⟨_, _, _, _, hm, rfl⟩
      have noTrail : isTrailing m = false := by
        simp only [isLeading, isTrailing, Bool.and_eq_true, decide_eq_true_eq,
          Bool.and_eq_false_iff, decide_eq_false_iff_not] at lead ⊢
        omega
      refine ⟨_, _, h', e', ?_⟩
      simp only [noTrail, lead, if_true, Bool.false_eq_true, if_false]
      rw [yields_bind]
      exact ⟨_, _, h, e, by simp [Rest.trans]⟩

/-- What is read behind a backslash is an escape, and every escape is read. -/
theorem yields_readEscape {s r : List Char} {c : Char} :
    Yields (readEscape readCodePoint s) c r ↔ ∃ e, Escape e c ∧ s = e ++ r := by
  constructor
  · intro h
    unfold readEscape at h
    split at h
    · simp at h
    · next s =>
      rw [yields_map] at h
      obtain ⟨d, t, ht, e, rfl, rfl⟩ := h
      obtain ⟨u, hu, rfl⟩ := yields_readCodePoint.1 (.intro e)
      exact ⟨_, hu, rfl⟩
    · next d s _ =>
      split at h
      · next e he =>
        obtain ⟨rfl, rfl⟩ : e = c ∧ s = r := by simpa [Rest.tail] using h
        exact ⟨_, .letter he, rfl⟩
      · simp at h
  · rintro ⟨e, he, rfl⟩
    have coded {u : List Char} (hu : Escape ('u' :: u) c) :
        Yields (readEscape readCodePoint ('u' :: (u ++ r))) c r := by
      obtain ⟨h, e⟩ := (yields_readCodePoint (r := r)).2 ⟨u, hu, rfl⟩
      rw [readEscape, yields_map]
      exact ⟨_, _, h, e, rfl, rfl⟩
    cases he with
    | @letter e _ he =>
      have notCoded : e ≠ 'u' := by rintro rfl; simp [ofLetter?] at he
      rw [List.singleton_append, readEscape]
      · simp [he, Rest.tail]
      · simpa using notCoded
    | code hn lone => exact coded (.code hn lone)
    | pair hm lead hn trail => exact coded (.pair hm lead hn trail)

/-! ### Literals -/

theorem yields_readBody {s r cs : List Char} :
    Yields (readBody readCodePoint s) cs r ↔ ∃ u, Body u cs ∧ s = u ++ r := by
  constructor
  · intro h
    fun_induction readBody readCodePoint s generalizing cs with
    | case1 => simp at h
    | case2 s =>
      obtain ⟨rfl, rfl⟩ : [] = cs ∧ s = r := by simpa [Rest.tail] using h
      exact ⟨_, .close, rfl⟩
    | case3 s ih =>
      rw [yields_bind] at h
      obtain ⟨c, t, ht, e, h⟩ := h
      obtain ⟨u, hu, rfl⟩ := yields_readEscape.1 (.intro e)
      rw [yields_bind] at h
      obtain ⟨ds, t', ht', e', h⟩ := h
      obtain ⟨rfl, rfl⟩ : c :: ds = cs ∧ t' = r := by simpa [Rest.trans] using h
      obtain ⟨w, hw, rfl⟩ := ih ⟨t, ht⟩ (.intro e')
      exact ⟨_, .escape hu hw, by simp⟩
    | case4 c s _ _ control => simp at h
    | case5 c s quote slash control ih =>
      rw [yields_bind] at h
      obtain ⟨ds, t, ht, e, h⟩ := h
      obtain ⟨rfl, rfl⟩ : c :: ds = cs ∧ t = r := by simpa [Rest.trans] using h
      obtain ⟨w, hw, rfl⟩ := ih (.intro e)
      exact ⟨_, .plain (by simpa using quote) (by simpa using slash) control hw, rfl⟩
  · rintro ⟨u, hu, rfl⟩
    induction hu with
    | close => simp [readBody, Rest.tail]
    | escape he _ ih =>
      obtain ⟨h, e⟩ := yields_readEscape.2 ⟨_, he, rfl⟩
      obtain ⟨h', e'⟩ := ih
      rw [List.cons_append, List.append_assoc, readBody, yields_bind]
      refine ⟨_, _, h, e, ?_⟩
      rw [yields_bind]
      exact ⟨_, _, h', e', by simp [Rest.trans]⟩
    | @plain c s cs quote slash control _ ih =>
      obtain ⟨h, e⟩ := ih
      rw [List.cons_append, readBody]
      · rw [if_neg control, yields_bind]
        exact ⟨_, _, h, e, by simp [Rest.trans]⟩
      · simpa using quote
      · simpa using slash

/-- The reader takes the literal that a text starts with, and what follows makes no difference. -/
theorem yields_read {s r : List Char} {t : String} :
    Yields (read s) t r ↔ ∃ u cs, Body u cs ∧ t = .ofList cs ∧ s = u ++ r := by
  rw [read, yields_bind]
  constructor
  · rintro ⟨cs, r', hr, e, h⟩
    obtain ⟨u, hu, rfl⟩ := yields_readBody.1 (.intro e)
    obtain ⟨rfl, rfl⟩ : String.ofList cs = t ∧ r' = r := by simpa using h
    exact ⟨u, cs, hu, rfl, rfl⟩
  · rintro ⟨u, cs, hu, rfl, rfl⟩
    obtain ⟨h, e⟩ := (yields_readBody (r := r)).2 ⟨u, hu, rfl⟩
    exact ⟨cs, r, h, e, by simp⟩

end FlowLint.Json.Literal

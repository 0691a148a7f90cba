import PgCutover.Like.MatchText

/-!
# Patterns with another escape character

`do_like_escape` of `like_match.c` rewrites a pattern with any escape character, or none, into one
with the backslash.
-/

namespace PgCutover.Like

open Lib List

/-- `NextChar` with `pg_mblen`, in UTF-8. -/
def mbNextChar : NextChar where
  next
    | [] => []
    | b :: t => t.drop (pgUtfMblen b - 1)
  le b t := by
    rw [length_drop]
    exact Nat.sub_le _ _

section Model

variable (N : NextChar)

/-- The bytes of the character at the front, which `CHAREQ` compares and `CopyAdvChar` copies. -/
def firstChar (p : List UInt8) : List UInt8 := p.take (p.length - (N.next p).length)

/-- Without an escape character, backslashes are ordinary characters. -/
def doubleBackslashes : List UInt8 → List UInt8
  | [] => []
  | b :: p =>
    (if b = backslash then [backslash] else []) ++
      (firstChar N (b :: p) ++ doubleBackslashes (N.next (b :: p)))
termination_by p => p.length
decreasing_by exact Nat.lt_succ_of_le (N.le b p)

/-- Turn the escape character `e` into a backslash, and double backslashes that are not escaped. -/
def convertEscape (e : List UInt8) (afterescape : Bool) : List UInt8 → List UInt8
  | [] => []
  | b :: p =>
    if firstChar N (b :: p) = e ∧ afterescape = false then
      backslash :: convertEscape e true (N.next (b :: p))
    else if b = backslash then
      (if afterescape then [backslash] else [backslash, backslash]) ++
        convertEscape e false (N.next (b :: p))
    else firstChar N (b :: p) ++ convertEscape e false (N.next (b :: p))
termination_by p => p.length
decreasing_by all_goals exact Nat.lt_succ_of_le (N.le b p)

/-- `do_like_escape`. -/
def doLikeEscape (pat : List UInt8) : List UInt8 → Except String (List UInt8)
  | [] => .ok (doubleBackslashes N pat)
  | b :: e =>
    if N.next (b :: e) ≠ [] then .error "invalid escape string"
    else if b = backslash then .ok pat
    else .ok (convertEscape N (firstChar N (b :: e)) false pat)

end Model

/-- `SB_do_like_escape`. -/
def sbDoLikeEscape : List UInt8 → List UInt8 → Except String (List UInt8) := doLikeEscape sbNextChar

/-- `MB_do_like_escape`. -/
def mbDoLikeEscape : List UInt8 → List UInt8 → Except String (List UInt8) := doLikeEscape mbNextChar

theorem utf8Alphabet_reads_mb : utf8Alphabet.Reads mbNextChar := by
  intro a l
  obtain ⟨b, bs, henc, -, -, hlen, -⟩ := utf8_enc a
  change mbNextChar.next (utf8.encode (a :: l)) = utf8.encode l
  rw [utf8.encode_cons, henc]
  change (bs ++ utf8.encode l).drop (pgUtfMblen b - 1) = _
  rw [hlen, Nat.add_sub_cancel, drop_left]

section Characters

variable {α : Type*} {E : Alphabet α} {N : NextChar}

theorem firstChar_encode (hN : E.Reads N) (a : α) (l : List α) :
    firstChar N (E.encode (a :: l)) = E.enc a := by
  rw [firstChar, hN, E.encode_cons, length_append, Nat.add_sub_cancel, take_left]

theorem first_eq_backslash_iff {c : α} {x : UInt8} {xs : List UInt8} (hx : E.enc c = x :: xs) :
    x = backslash ↔ c = E.backslash := by
  constructor
  · rintro rfl
    have henc := E.special c backslash (hx ▸ mem_cons_self) (.inr (.inr rfl))
    exact E.unique _ _ (henc ▸ E.enc_backslash ▸ prefix_refl _)
  · rintro rfl
    exact (List.cons.inj (hx.symm.trans E.enc_backslash)).1

variable [DecidableEq α]

theorem doubleBackslashes_cons (hN : E.Reads N) (c : α) (p : List α) :
    doubleBackslashes N (E.encode (c :: p)) =
      (if c = E.backslash then [backslash] else []) ++
        (E.enc c ++ doubleBackslashes N (E.encode p)) := by
  obtain ⟨x, _, hx, hcons⟩ := E.exists_cons c
  rw [hcons, doubleBackslashes, ← hcons, firstChar_encode hN, hN]
  simp only [first_eq_backslash_iff hx]

theorem convertEscape_cons (hN : E.Reads N) (e : α) (afterescape : Bool) (c : α) (p : List α) :
    convertEscape N (E.enc e) afterescape (E.encode (c :: p)) =
      if c = e ∧ afterescape = false then
        backslash :: convertEscape N (E.enc e) true (E.encode p)
      else if c = E.backslash then
        (if afterescape then [backslash] else [backslash, backslash]) ++
          convertEscape N (E.enc e) false (E.encode p)
      else E.enc c ++ convertEscape N (E.enc e) false (E.encode p) := by
  obtain ⟨x, _, hx, hcons⟩ := E.exists_cons c
  have henc : E.enc c = E.enc e ↔ c = e :=
    ⟨fun h => E.unique _ _ (h ▸ prefix_refl _), fun h => h ▸ rfl⟩
  rw [hcons, convertEscape, ← hcons, firstChar_encode hN, hN]
  simp only [first_eq_backslash_iff hx, henc]

/-- A backslash is an ordinary character unless it is the escape character. -/
theorem token_backslash : E.token E.backslash = .lit E.backslash := by
  have hne {c : α} {b : UInt8} (hc : E.enc c = [b]) (hb : b ≠ backslash) : E.backslash ≠ c := by
    rintro rfl
    exact hb (List.cons.inj (hc.symm.trans E.enc_backslash)).1
  rw [Alphabet.token, if_neg (hne E.enc_percent (by decide)),
    if_neg (hne E.enc_underscore (by decide))]

theorem doubleBackslashes_spec (hN : E.Reads N) (p : List α) :
    ∃ q, doubleBackslashes N (E.encode p) = E.encode q ∧
      E.tokens (some E.backslash) false q = E.tokens none false p := by
  induction p with
  | nil => exact ⟨[], by rw [E.encode_nil, doubleBackslashes], rfl⟩
  | cons c p ih =>
    obtain ⟨q, hq, htokens⟩ := ih
    rw [doubleBackslashes_cons hN, hq]
    split_ifs with hc
    · subst hc
      refine ⟨E.backslash :: E.backslash :: q, by simp [E.enc_backslash], ?_⟩
      simp [Alphabet.tokens, htokens, token_backslash]
    · refine ⟨c :: q, by simp, ?_⟩
      simp [Alphabet.tokens, htokens, Ne.symm hc]

/-- The rewritten pattern has the signs of the pattern, also after an escape character. -/
theorem convertEscape_spec (hN : E.Reads N) {e : α} (he : e ≠ E.backslash) (p : List α)
    (afterescape : Bool) :
    ∃ q, convertEscape N (E.enc e) afterescape (E.encode p) = E.encode q ∧
      E.tokens (some E.backslash) afterescape q = E.tokens (some e) afterescape p := by
  induction p generalizing afterescape with
  | nil => exact ⟨[], by rw [E.encode_nil, convertEscape], by cases afterescape <;> rfl⟩
  | cons c p ih =>
    rw [convertEscape_cons hN]
    split_ifs with hescape hc hafter
    · obtain ⟨rfl, rfl⟩ := hescape
      obtain ⟨q, hq, htokens⟩ := ih true
      refine ⟨E.backslash :: q, by simp [E.enc_backslash, hq], ?_⟩
      simp [Alphabet.tokens, htokens]
    all_goals obtain ⟨q, hq, htokens⟩ := ih false
    · subst hc hafter
      refine ⟨E.backslash :: q, by simp [E.enc_backslash, hq], ?_⟩
      simp [Alphabet.tokens, htokens]
    · obtain rfl := Bool.eq_false_iff.mpr hafter
      subst hc
      refine ⟨E.backslash :: E.backslash :: q, by simp [E.enc_backslash, hq], ?_⟩
      simp [Alphabet.tokens, htokens, he, token_backslash]
    · refine ⟨c :: q, by simp [hq], ?_⟩
      cases afterescape with
      | true => simp [Alphabet.tokens, htokens]
      | false =>
        have hne : c ≠ e := fun h => hescape ⟨h, rfl⟩
        simp [Alphabet.tokens, htokens, hne.symm, Ne.symm hc]

theorem doLikeEscape_tokens (hN : E.Reads N) (p : List α) (e : Option α) :
    ∃ q, doLikeEscape N (E.encode p) (E.encode e.toList) = .ok (E.encode q) ∧
      E.tokens (some E.backslash) false q = E.tokens e false p := by
  cases e with
  | none =>
    obtain ⟨q, hq, htokens⟩ := doubleBackslashes_spec hN p
    exact ⟨q, congrArg Except.ok hq, htokens⟩
  | some e =>
    obtain ⟨x, _, hx, hcons⟩ := E.exists_cons e
    have hnext : N.next (E.encode [e]) = [] := hN e []
    rw [Option.toList_some, hcons, doLikeEscape, ← hcons, firstChar_encode hN,
      if_neg (not_not_intro hnext)]
    simp only [first_eq_backslash_iff hx]
    split_ifs with he
    · exact ⟨p, rfl, he ▸ rfl⟩
    · obtain ⟨q, hq, htokens⟩ := convertEscape_spec hN he p false
      exact ⟨q, congrArg Except.ok hq, htokens⟩

/-- The steps of the rewriter and of the matcher may differ. -/
theorem doLikeEscape_spec {M : NextChar} (hN : E.Reads N) (hM : E.Reads M) {p : List α}
    {e : Option α} (hp : ¬ E.EndsInEscape e p) (t : List α) :
    ∃ q, doLikeEscape N (E.encode p) (E.encode e.toList) = .ok q ∧
      (matchText M (E.encode t) q = .ok .likeTrue ↔ E.IsLike e p t) := by
  obtain ⟨q, hq, htokens⟩ := doLikeEscape_tokens hN p e
  have hspec := matchText_spec hM (p := q) (by rwa [Alphabet.EndsInEscape, htokens]) t
  rw [Alphabet.IsLike, htokens] at hspec
  exact ⟨_, hq, hspec.1⟩

end Characters

/-- A pattern with any escape character, rewritten for `MatchText`, matches what it should. -/
theorem doLikeEscape_correct :
    (∀ (t p : List UInt8) (e : Option UInt8), ¬ sbAlphabet.EndsInEscape e p →
      ∃ q, sbDoLikeEscape p e.toList = .ok q ∧
        (sbMatchText t q = .ok .likeTrue ↔ sbAlphabet.IsLike e p t)) ∧
    ∀ (t p : List Char) (e : Option Char), ¬ utf8Alphabet.EndsInEscape e p →
      ∃ q, mbDoLikeEscape (utf8.encode p) (utf8.encode e.toList) = .ok q ∧
        (utf8MatchText (utf8.encode t) q = .ok .likeTrue ↔ utf8Alphabet.IsLike e p t) := by
  constructor
  all_goals intro t p e hp
  · have hencode (l : List UInt8) : sbAlphabet.encode l = l := flatMap_singleton' l
    have hspec := doLikeEscape_spec sbAlphabet_reads sbAlphabet_reads hp t
    rw [hencode, hencode, hencode] at hspec
    exact hspec
  · exact doLikeEscape_spec utf8Alphabet_reads_mb utf8Alphabet_reads hp t

/-- The escape character is a hash, and the pattern has a backslash that stands for itself. -/
theorem doLikeEscape_correct_hash :
    ∃ q, mbDoLikeEscape (utf8.encode ['\\', '#', '%']) (utf8.encode ['#']) = .ok q ∧
      (utf8MatchText (utf8.encode ['\\', '%']) q = .ok .likeTrue ↔
        utf8Alphabet.IsLike (some '#') ['\\', '#', '%'] ['\\', '%']) := by
  have hends : ¬ utf8Alphabet.EndsInEscape (some '#') ['\\', '#', '%'] := by
    rw [Alphabet.EndsInEscape]
    decide
  exact doLikeEscape_correct.2 _ _ (some '#') hends

end PgCutover.Like

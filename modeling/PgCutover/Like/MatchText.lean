import PgCutover.Lib.CharCode

/-!
# The LIKE matcher

`MatchText` of `like_match.c`. The file is compiled once per kind of encoding, with its own
`NextChar`; `SB_MatchText` and `UTF8_MatchText` are the instances here. The matcher compares bytes
and steps over characters only at wildcards, so it is proved correct for any code of the
characters in which `%`, `_` and the backslash are bytes of their own.
-/

namespace PgCutover.Like

open Lib List

/-- `LIKE_ABORT` says that no longer text can match either. -/
inductive LikeResult where
  | likeTrue
  | likeFalse
  | likeAbort
  deriving DecidableEq

abbrev percent : UInt8 := 0x25
abbrev underscore : UInt8 := 0x5F
abbrev backslash : UInt8 := 0x5C

/-- A step over the character at the front of a string. -/
structure NextChar where
  next : List UInt8 → List UInt8
  le : ∀ b t, (next (b :: t)).length ≤ t.length

/-- `NextChar` for encodings of one byte a character. -/
def sbNextChar : NextChar where
  next := List.tail
  le _ _ := Nat.le_refl _

/-- A byte of a character in UTF-8 that is not its first one. -/
def IsContinuation (b : UInt8) : Prop := b &&& 0xC0 = 0x80

instance : DecidablePred IsContinuation := fun _ => inferInstanceAs (Decidable (_ = _))

/-- `NextChar` for UTF-8: the continuation bytes are skipped. -/
def utf8NextChar : NextChar where
  next t := t.tail.dropWhile IsContinuation
  le _ _ := (dropWhile_suffix _).length_le

/-- `pg_utf_mblen`. -/
def pgUtfMblen (b : UInt8) : ℕ :=
  if b &&& 0x80 = 0 then 1
  else if b &&& 0xe0 = 0xc0 then 2
  else if b &&& 0xf0 = 0xe0 then 3
  else if b &&& 0xf8 = 0xf0 then 4
  else 1

section Model

variable (N : NextChar)

/-- The error for a pattern that ends in the escape character. -/
def escapeError : String := "LIKE pattern must not end with escape character"

/-- The wildcards after a `%`; `none` if the text is too short for them. -/
def skipWildcards (t : List UInt8) : List UInt8 → Option (List UInt8 × List UInt8)
  | [] => some (t, [])
  | c :: p =>
    if c = percent then skipWildcards t p
    else if c = underscore then if t = [] then none else skipWildcards (N.next t) p
    else some (t, c :: p)

theorem length_skipWildcards_le {t p t' p' : List UInt8}
    (h : skipWildcards N t p = some (t', p')) : p'.length ≤ p.length := by
  fun_induction skipWildcards N t p with
  | case1 | case5 =>
    cases h
    exact Nat.le_refl _
  | case2 t p ih | case4 t p _ _ ih => exact Nat.le_succ_of_le (ih h)
  | case3 => cases h

/-- The byte that a match of the pattern starts with. -/
def firstpat : List UInt8 → Except String UInt8
  | [] => .error escapeError
  | c :: p =>
    if c = backslash then
      match p with
      | [] => .error escapeError
      | c :: _ => .ok c
    else .ok c

/-- The search for a position of the text at which the rest of the pattern matches. -/
def search (firstpat : UInt8) (matchText : List UInt8 → Except String LikeResult) :
    List UInt8 → Except String LikeResult
  | [] => .ok .likeAbort
  | b :: t =>
    if b = firstpat then
      match matchText (b :: t) with
      | .ok .likeFalse => search firstpat matchText (N.next (b :: t))
      | result => result
    else search firstpat matchText (N.next (b :: t))
termination_by t => t.length
decreasing_by all_goals exact Nat.lt_succ_of_le (N.le b t)

/-- The loop of `MatchText`. -/
def matchLoop (t p : List UInt8) : Except String LikeResult :=
  match t, p with
  | [], p => .ok (if p.dropWhile (· = percent) = [] then .likeTrue else .likeAbort)
  | _ :: _, [] => .ok .likeFalse
  | b :: t, c :: p =>
    if c = backslash then
      match p with
      | [] => .error escapeError
      | c :: p => if c = b then matchLoop t p else .ok .likeFalse
    else if c = percent then
      match _h : skipWildcards N (b :: t) p with
      | none => .ok .likeAbort
      | some (_, []) => .ok .likeTrue
      | some (t, p) =>
        (firstpat p).bind fun first =>
          search N first (fun t => if p = [percent] then .ok .likeTrue else matchLoop t p) t
    else if c = underscore then matchLoop (N.next (b :: t)) p
    else if c = b then matchLoop t p
    else .ok .likeFalse
termination_by p.length
decreasing_by
  · simp only [length_cons]; omega
  · exact Nat.lt_succ_of_le (length_skipWildcards_le N _h)
  · exact Nat.lt_succ_self _
  · exact Nat.lt_succ_self _

/-- `MatchText`. -/
def matchText (t p : List UInt8) : Except String LikeResult :=
  -- fast path for the pattern that matches everything
  if p = [percent] then .ok .likeTrue else matchLoop N t p

end Model

/-- `SB_MatchText`. -/
def sbMatchText : List UInt8 → List UInt8 → Except String LikeResult := matchText sbNextChar

/-- `UTF8_MatchText`. -/
def utf8MatchText : List UInt8 → List UInt8 → Except String LikeResult := matchText utf8NextChar

/-! ### What a pattern means -/

/-- A sign of a pattern. -/
inductive Token (α : Type*) where
  | any
  | one
  | lit (c : α)

section Matches

variable {α : Type*} {ts : List (Token α)} {a : α} {t : List α}

/-- The text matches the signs of a pattern. -/
def Matches : List (Token α) → List α → Prop
  | [], t => t = []
  | .any :: ts, t => ∃ s, s <:+ t ∧ Matches ts s
  | .one :: ts, t => ∃ a s, t = a :: s ∧ Matches ts s
  | .lit c :: ts, t => ∃ s, t = c :: s ∧ Matches ts s

theorem matches_any_nil : Matches (.any :: ts) [] ↔ Matches ts [] := by
  simp only [Matches, suffix_nil, exists_eq_left]

theorem matches_any_cons :
    Matches (.any :: ts) (a :: t) ↔ Matches ts (a :: t) ∨ Matches (.any :: ts) t := by
  simp only [Matches, suffix_cons_iff, or_and_right, exists_or, exists_eq_left]

theorem matches_any_any : Matches (.any :: .any :: ts) t ↔ Matches (.any :: ts) t := by
  constructor
  · rintro ⟨s, hs, s', hs', h⟩
    exact ⟨s', hs'.trans hs, h⟩
  · rintro ⟨s, hs, h⟩
    exact ⟨t, suffix_refl t, s, hs, h⟩

theorem not_matches_any_one_nil : ¬ Matches (.any :: .one :: ts) ([] : List α) := by
  simp [Matches]

theorem suffix_of_cons {b : α} {s : List α} (h : b :: s <:+ a :: t) : s <:+ t := by
  rcases suffix_cons_iff.mp h with heq | hsuffix
  · exact (List.cons.inj heq).2 ▸ suffix_refl s
  · exact (suffix_cons b s).trans hsuffix

/-- The place of the character in a sequence of wildcards does not matter. -/
theorem matches_any_one_cons : Matches (.any :: .one :: ts) (a :: t) ↔ Matches (.any :: ts) t := by
  constructor
  · rintro ⟨s, hs, b, s', rfl, h⟩
    exact ⟨s', suffix_of_cons hs, h⟩
  · rintro ⟨s, ⟨u, rfl⟩, h⟩
    rcases eq_nil_or_concat u with rfl | ⟨v, b, rfl⟩
    · exact ⟨a :: s, suffix_refl _, a, s, rfl, h⟩
    · exact ⟨b :: s, ⟨a :: v, by simp⟩, b, s, rfl, h⟩

/-- What a result of the matcher says. -/
def Decides (ts : List (Token α)) (t : List α) : LikeResult → Prop
  | .likeTrue => Matches ts t
  | .likeFalse => ¬ Matches ts t
  | .likeAbort => ∀ s, s <:+ t → ¬ Matches ts s

variable {r : LikeResult}

/-- A sign that takes one character, in front of the pattern and of the text. -/
theorem Decides.cons {k : Token α} {F : α → Prop} (h : Decides ts t r)
    (hk : ∀ s, Matches (k :: ts) s ↔ ∃ b s', s = b :: s' ∧ F b ∧ Matches ts s')
    (ha : F a) : Decides (k :: ts) (a :: t) r := by
  cases r with
  | likeTrue => exact (hk _).mpr ⟨a, t, rfl, ha, h⟩
  | likeFalse =>
    intro hmatches
    obtain ⟨b, _, heq, -, hs'⟩ := (hk _).mp hmatches
    exact h ((List.cons.inj heq).2 ▸ hs')
  | likeAbort =>
    intro s hs hmatches
    obtain ⟨b, s', rfl, -, hs'⟩ := (hk _).mp hmatches
    exact h s' (suffix_of_cons hs) hs'

theorem Decides.one (h : Decides ts t r) : Decides (.one :: ts) (a :: t) r :=
  h.cons (F := fun _ => True) (fun s => by simp [Matches]) trivial

theorem Decides.lit (h : Decides ts t r) : Decides (.lit a :: ts) (a :: t) r :=
  h.cons (F := (· = a)) (fun s => by simp [Matches]) rfl

theorem Decides.any_nil (h : Decides ts [] r) : Decides (.any :: ts) [] r := by
  cases r <;> simpa only [Decides, suffix_nil, forall_eq, matches_any_nil] using h

/-- A `%` is decided by a search, and then the text is not too short or no suffix matches. -/
theorem Decides.any (h : r = .likeTrue ∧ Matches (.any :: ts) t ∨
    r = .likeAbort ∧ ¬ Matches (.any :: ts) t) : Decides (.any :: ts) t r := by
  rcases h with ⟨rfl, h⟩ | ⟨rfl, h⟩
  · exact h
  · rintro s hs ⟨s', hs', hmatches⟩
    exact h ⟨s', hs'.trans hs, hmatches⟩

end Matches

/-- The bytes with a meaning in a pattern. -/
def Special (b : UInt8) : Prop := b = percent ∨ b = underscore ∨ b = backslash

/-- A code of characters in which the special bytes are characters of their own. -/
structure Alphabet (α : Type*) extends CharCode α where
  percent : α
  underscore : α
  backslash : α
  enc_percent : enc percent = [Like.percent]
  enc_underscore : enc underscore = [Like.underscore]
  enc_backslash : enc backslash = [Like.backslash]
  special : ∀ a, ∀ b ∈ enc a, Special b → enc a = [b]

namespace Alphabet

variable {α : Type*} (E : Alphabet α)

/-- The steps over characters are steps in the code. -/
def Reads (N : NextChar) : Prop := ∀ a l, N.next (E.encode (a :: l)) = E.encode l

/-- A character that is not special has no special byte. -/
theorem not_special {c : α} (hpercent : c ≠ E.percent) (hunderscore : c ≠ E.underscore)
    (hbackslash : c ≠ E.backslash) : ∀ b ∈ E.enc c, ¬ Special b := by
  intro b hb hspecial
  have henc := E.special c b hb hspecial
  rcases hspecial with rfl | rfl | rfl
  · exact hpercent (E.unique _ _ (E.enc_percent ▸ henc ▸ prefix_refl _))
  · exact hunderscore (E.unique _ _ (E.enc_underscore ▸ henc ▸ prefix_refl _))
  · exact hbackslash (E.unique _ _ (E.enc_backslash ▸ henc ▸ prefix_refl _))

variable [DecidableEq α]

/-- What a character of a pattern stands for. -/
def token (c : α) : Token α :=
  if c = E.percent then .any else if c = E.underscore then .one else .lit c

/-- The signs of a pattern, where `esc` quotes the next character; `none` if it ends in an `esc`
that quotes nothing. The flag says that the next character is quoted. -/
def tokens (esc : Option α) : Bool → List α → Option (List (Token α))
  | false, [] => some []
  | true, [] => none
  | true, c :: p => (tokens esc false p).map (.lit c :: ·)
  | false, c :: p =>
    if esc = some c then tokens esc true p else (tokens esc false p).map (E.token c :: ·)

/-- The pattern ends in an escape character that is not quoted itself. -/
def EndsInEscape (esc : Option α) (p : List α) : Prop := E.tokens esc false p = none

/-- `t LIKE p ESCAPE esc`. -/
def IsLike (esc : Option α) (p t : List α) : Prop :=
  ∃ ts, E.tokens esc false p = some ts ∧ Matches ts t

variable {E}

/-- What a pattern that does not end in a backslash can start with. -/
theorem tokens_cases {c : α} {p : List α} {ts : List (Token α)}
    (h : E.tokens (some E.backslash) false (c :: p) = some ts) :
    (c = E.backslash ∧ ∃ d p' ts', p = d :: p' ∧ ts = .lit d :: ts' ∧
        E.tokens (some E.backslash) false p' = some ts') ∨
      ∃ ts', E.tokens (some E.backslash) false p = some ts' ∧
        (c = E.percent ∧ ts = .any :: ts' ∨ c = E.underscore ∧ ts = .one :: ts' ∨
          (∀ b ∈ E.enc c, ¬ Special b) ∧ ts = .lit c :: ts') := by
  rw [tokens] at h
  split_ifs at h with hesc
  · cases p with
    | nil => cases h
    | cons d p =>
      obtain ⟨ts', hts', rfl⟩ := Option.map_eq_some_iff.mp h
      exact .inl ⟨(Option.some.inj hesc).symm, d, p, ts', rfl, rfl, hts'⟩
  · obtain ⟨ts', hts', rfl⟩ := Option.map_eq_some_iff.mp h
    refine .inr ⟨ts', hts', ?_⟩
    rw [token]
    split_ifs with hpercent hunderscore
    · exact .inl ⟨hpercent, rfl⟩
    · exact .inr (.inl ⟨hunderscore, rfl⟩)
    · exact .inr (.inr ⟨E.not_special hpercent hunderscore fun h => hesc (h ▸ rfl), rfl⟩)

end Alphabet

/-! ### The matcher, byte by byte -/

section Bytes

variable {N : NextChar} {b c : UInt8} {t p : List UInt8}

theorem matchLoop_nil_percent : matchLoop N [] (percent :: p) = matchLoop N [] p := by
  rw [matchLoop, matchLoop, dropWhile_cons_of_pos (by simp)]

theorem matchLoop_nil_of_ne (hc : c ≠ percent) : matchLoop N [] (c :: p) = .ok .likeAbort := by
  rw [matchLoop, dropWhile_cons_of_neg (by simpa using hc), if_neg (cons_ne_nil _ _)]

theorem matchLoop_quote : matchLoop N (b :: t) (backslash :: c :: p) =
    if c = b then matchLoop N t p else .ok .likeFalse := by
  rw [matchLoop, if_pos rfl]

theorem matchLoop_underscore :
    matchLoop N (b :: t) (underscore :: p) = matchLoop N (N.next (b :: t)) p := by
  rw [matchLoop.eq_def]
  dsimp only
  rw [if_neg (by decide), if_neg (by decide), if_pos rfl]

theorem matchLoop_byte (hc : ¬ Special c) : matchLoop N (b :: t) (c :: p) =
    if c = b then matchLoop N t p else .ok .likeFalse := by
  simp only [Special, not_or] at hc
  rw [matchLoop.eq_def]
  dsimp only
  rw [if_neg hc.2.2, if_neg hc.1, if_neg hc.2.1]

theorem matchLoop_percent_none (h : skipWildcards N (b :: t) p = none) :
    matchLoop N (b :: t) (percent :: p) = .ok .likeAbort := by
  rw [matchLoop.eq_def]
  dsimp only
  rw [if_neg (by decide), if_pos rfl]
  split <;> simp_all

theorem matchLoop_percent_nil {t' : List UInt8} (h : skipWildcards N (b :: t) p = some (t', [])) :
    matchLoop N (b :: t) (percent :: p) = .ok .likeTrue := by
  rw [matchLoop.eq_def]
  dsimp only
  rw [if_neg (by decide), if_pos rfl]
  split <;> simp_all

/-- The fast path does not change the result. -/
theorem matchText_eq : matchText N t p = matchLoop N t p := by
  rw [matchText]
  split_ifs with hp
  · subst hp
    cases t with
    | nil => rw [matchLoop, if_pos (by simp)]
    | cons => rw [matchLoop_percent_nil rfl]
  · rfl

theorem matchLoop_percent_some {t' p' : List UInt8} {first : UInt8}
    (h : skipWildcards N (b :: t) p = some (t', p')) (hfirst : firstpat p' = .ok first) :
    matchLoop N (b :: t) (percent :: p) = search N first (fun t => matchLoop N t p') t' := by
  rw [matchLoop.eq_def]
  dsimp only
  rw [if_neg (by decide), if_pos rfl]
  split
  case h_1 hskip => cases h.symm.trans hskip
  case h_2 hskip =>
    obtain ⟨-, rfl⟩ := Prod.mk.inj (Option.some.inj (h.symm.trans hskip))
    cases hfirst
  case h_3 hskip =>
    obtain ⟨rfl, rfl⟩ := Prod.mk.inj (Option.some.inj (h.symm.trans hskip))
    rw [hfirst]
    exact congrArg (search N first · t') (funext fun t => matchText_eq)

/-- Text and pattern advance in lockstep over bytes they share. -/
theorem matchLoop_append {w : List UInt8} (hw : ∀ b ∈ w, ¬ Special b) :
    matchLoop N (w ++ t) (w ++ p) = matchLoop N t p := by
  induction w with
  | nil => rfl
  | cons b w ih =>
    rw [forall_mem_cons] at hw
    rw [cons_append, cons_append, matchLoop_byte hw.1, if_pos rfl, ih hw.2]

theorem matchLoop_differ {w w' : List UInt8} (hw : ∀ b ∈ w, ¬ Special b) (h : ¬ w <+: w')
    (h' : ¬ w' <+: w) : matchLoop N (w' ++ t) (w ++ p) = .ok .likeFalse := by
  induction w generalizing w' with
  | nil => exact absurd nil_prefix h
  | cons c w ih =>
    cases w' with
    | nil => exact absurd nil_prefix h'
    | cons =>
      rw [forall_mem_cons] at hw
      rw [cons_append, cons_append, matchLoop_byte hw.1]
      split_ifs with heq
      · rw [cons_prefix_cons] at h h'
        exact ih hw.2 (fun hp => h ⟨heq, hp⟩) fun hp => h' ⟨heq.symm, hp⟩
      · rfl

end Bytes

/-! ### The matcher, character by character -/

section Characters

variable {α : Type*} {E : Alphabet α} {N : NextChar}

variable {ts : List (Token α)} {p : List α} {c : α}

/-- The search finds a suffix of the text that matches, or there is none. -/
theorem search_spec (hN : E.Reads N) {x : UInt8} {xs : List UInt8}
    {f : List UInt8 → Except String LikeResult} (hx : E.enc c = x :: xs)
    (hf : ∀ t, ∃ r, f (E.encode t) = .ok r ∧ Decides (.lit c :: ts) t r) (t : List α) :
    ∃ r, search N x f (E.encode t) = .ok r ∧
      (r = .likeTrue ∧ Matches (.any :: .lit c :: ts) t ∨
        r = .likeAbort ∧ ¬ Matches (.any :: .lit c :: ts) t) := by
  induction t with
  | nil =>
    refine ⟨.likeAbort, by rw [E.encode_nil, search], .inr ⟨rfl, ?_⟩⟩
    simp [Matches]
  | cons a t ih =>
    obtain ⟨y, _, hy, hcons⟩ := E.exists_cons a
    -- no match here: the search goes on after the character
    have hnext (hno : ¬ Matches (.lit c :: ts) (a :: t)) :
        ∃ r, search N x f (N.next (E.encode (a :: t))) = .ok r ∧
          (r = .likeTrue ∧ Matches (.any :: .lit c :: ts) (a :: t) ∨
            r = .likeAbort ∧ ¬ Matches (.any :: .lit c :: ts) (a :: t)) := by
      rw [hN, matches_any_cons, or_iff_right hno]
      exact ih
    rw [hcons] at hnext ⊢
    rw [search]
    split_ifs with hxy
    · obtain ⟨r, hr, hdecides⟩ := hf (a :: t)
      rw [← hcons, hr]
      cases r with
      | likeTrue => exact ⟨_, rfl, .inl ⟨rfl, matches_any_cons.mpr (.inl hdecides)⟩⟩
      | likeFalse => exact hcons t ▸ hnext hdecides
      | likeAbort => exact ⟨_, rfl, .inr ⟨rfl, fun ⟨s, hs, h⟩ => hdecides s hs h⟩⟩
    · refine hnext ?_
      rintro ⟨s, heq, -⟩
      obtain ⟨rfl, -⟩ := List.cons.inj heq
      exact hxy (List.cons.inj (hy.symm.trans hx)).1

variable [DecidableEq α]

/-- A literal character, quoted or not, takes the same character of the text. -/
theorem matchLoop_lit {a : α} {t p q : List UInt8} (hq : ∀ x xs y s r, E.enc c = x :: xs →
      matchLoop N (y :: s) (q ++ x :: r) = if x = y then matchLoop N s r else .ok .likeFalse) :
    matchLoop N (E.enc a ++ t) (q ++ (E.enc c ++ p)) =
      if a = c then matchLoop N t p else .ok .likeFalse := by
  obtain ⟨x, xs, hx, -⟩ := E.exists_cons c
  obtain ⟨y, _, hy, -⟩ := E.exists_cons a
  have hxs : ∀ b ∈ xs, ¬ Special b := by
    intro b hb hspecial
    have henc := E.special c b (hx ▸ mem_cons_of_mem x hb) hspecial
    rw [hx] at henc
    rw [(List.cons.inj henc).2] at hb
    cases hb
  rw [hx, hy, cons_append, cons_append, hq x xs y _ _ hx]
  by_cases hac : a = c
  · obtain ⟨rfl, rfl⟩ := List.cons.inj (hy.symm.trans (hac ▸ hx))
    rw [if_pos rfl, if_pos hac, matchLoop_append hxs]
  · rw [if_neg hac]
    split_ifs with hxy
    · subst hxy
      refine matchLoop_differ hxs (fun hp => hac (E.unique c a ?_).symm) fun hp =>
        hac (E.unique a c ?_)
      all_goals
        rw [hx, hy, cons_prefix_cons]
        exact ⟨rfl, hp⟩
    · rfl

/-- At the end of the text. -/
theorem decides_nil (hp : E.tokens (some E.backslash) false p = some ts) :
    ∃ r, matchLoop N [] (E.encode p) = .ok r ∧ Decides ts [] r := by
  have habort {c : UInt8} {p : List UInt8} {ts : List (Token α)} (hc : c ≠ percent)
      (h : ¬ Matches ts []) : ∃ r, matchLoop N [] (c :: p) = .ok r ∧ Decides ts [] r := by
    refine ⟨.likeAbort, matchLoop_nil_of_ne hc, fun s hs => ?_⟩
    rwa [suffix_nil.mp hs]
  induction p generalizing ts with
  | nil =>
    cases hp
    exact ⟨.likeTrue, by simp [matchLoop], rfl⟩
  | cons c p ih =>
    rw [E.encode_cons]
    rcases E.tokens_cases hp with ⟨rfl, d, p, _, rfl, rfl, -⟩ | ⟨_, hts, hc⟩
    · rw [E.enc_backslash]
      exact habort (by decide) (by simp [Matches])
    · rcases hc with ⟨rfl, rfl⟩ | ⟨rfl, rfl⟩ | ⟨hspecial, rfl⟩
      · obtain ⟨r, hr, hdecides⟩ := ih hts
        rw [E.enc_percent]
        exact ⟨r, matchLoop_nil_percent.trans hr, hdecides.any_nil⟩
      · rw [E.enc_underscore]
        exact habort (by decide) (by simp [Matches])
      · obtain ⟨x, _, hx, -⟩ := E.exists_cons c
        rw [hx] at hspecial ⊢
        exact habort (fun h => hspecial x mem_cons_self (.inl h)) (by simp [Matches])

/-- The wildcards after a `%` can be skipped. What is left is empty or starts with a literal. -/
theorem skipWildcards_spec (hN : E.Reads N)
    (hp : E.tokens (some E.backslash) false p = some ts) (t : List α) :
    (skipWildcards N (E.encode t) (E.encode p) = none ∧ ¬ Matches (.any :: ts) t) ∨
      ∃ t' p' ts', skipWildcards N (E.encode t) (E.encode p) = some (E.encode t', E.encode p') ∧
        E.tokens (some E.backslash) false p' = some ts' ∧
        (Matches (.any :: ts) t ↔ Matches (.any :: ts') t') ∧
        (p' = [] ∨ ∃ c x xs, (∃ ts₁, ts' = .lit c :: ts₁) ∧ E.enc c = x :: xs ∧
          firstpat (E.encode p') = .ok x) := by
  induction p generalizing ts t with
  | nil => exact .inr ⟨t, [], ts, rfl, hp, Iff.rfl, .inl rfl⟩
  | cons c p ih =>
    rcases E.tokens_cases hp with ⟨rfl, d, p, ts, rfl, rfl, -⟩ | ⟨ts, hts, hc⟩
    · obtain ⟨x, xs, hx, -⟩ := E.exists_cons d
      refine .inr ⟨t, _, _, ?_, hp, Iff.rfl, .inr ⟨d, x, xs, ⟨ts, rfl⟩, hx, ?_⟩⟩
      · rw [E.encode_cons, E.enc_backslash]
        rfl
      · rw [E.encode_cons, E.encode_cons, E.enc_backslash, hx]
        rfl
    · rcases hc with ⟨rfl, rfl⟩ | ⟨rfl, rfl⟩ | ⟨hspecial, rfl⟩
      · rw [E.encode_cons, E.enc_percent, matches_any_any]
        exact ih hts t
      · rw [E.encode_cons, E.enc_underscore]
        cases t with
        | nil => exact .inl ⟨rfl, not_matches_any_one_nil⟩
        | cons a t =>
          have hne : E.encode (a :: t) ≠ [] := by simp [E.ne_nil]
          rw [singleton_append, skipWildcards, if_neg (by decide), if_pos rfl, if_neg hne, hN,
            matches_any_one_cons]
          exact ih hts t
      · obtain ⟨x, xs, hx, hcons⟩ := E.exists_cons c
        have hne := hspecial x (hx ▸ mem_cons_self)
        simp only [Special, not_or] at hne
        refine .inr ⟨t, c :: p, _, ?_, hp, Iff.rfl, .inr ⟨c, x, xs, ⟨ts, rfl⟩, hx, ?_⟩⟩
        · rw [hcons, skipWildcards, if_neg hne.1, if_neg hne.2.1]
        · rw [hcons]
          exact if_neg hne.2.2

theorem decides_lit {a : α} {t : List α} {P : List UInt8}
    (h : ∃ r, matchLoop N (E.encode t) P = .ok r ∧ Decides ts t r) :
    ∃ r, (if a = c then matchLoop N (E.encode t) P else .ok .likeFalse) = .ok r ∧
      Decides (.lit c :: ts) (a :: t) r := by
  split_ifs with hac
  · obtain ⟨r, hr, hdecides⟩ := h
    exact ⟨r, hr, hac ▸ hdecides.lit⟩
  · refine ⟨_, rfl, ?_⟩
    rintro ⟨s, heq, -⟩
    exact hac (List.cons.inj heq).1

/-- A `%`, if the matcher is right for what is left of the pattern after the wildcards. -/
theorem decides_percent (hN : E.Reads N) (hp : E.tokens (some E.backslash) false p = some ts)
    (ih : ∀ {p' ts'}, E.tokens (some E.backslash) false p' = some ts' →
      (E.encode p').length ≤ (E.encode p).length →
      ∀ t, ∃ r, matchLoop N (E.encode t) (E.encode p') = .ok r ∧ Decides ts' t r)
    (a : α) (t : List α) :
    ∃ r, matchLoop N (E.encode (a :: t)) (E.encode (E.percent :: p)) = .ok r ∧
      Decides (.any :: ts) (a :: t) r := by
  obtain ⟨y, _, -, hcons⟩ := E.exists_cons a
  have hskip := skipWildcards_spec hN hp (a :: t)
  rw [hcons] at hskip ⊢
  rw [E.encode_cons, E.enc_percent]
  rcases hskip with ⟨hnone, hno⟩ | ⟨t', p', _, hsome, hp', hiff, rfl | hfirst⟩
  · exact ⟨_, matchLoop_percent_none hnone, .any (.inr ⟨rfl, hno⟩)⟩
  · cases hp'
    refine ⟨_, matchLoop_percent_nil hsome, .any (.inl ⟨rfl, ?_⟩)⟩
    exact hiff.mpr ⟨[], nil_suffix, rfl⟩
  · obtain ⟨c, x, _, ⟨_, rfl⟩, hx, hfirst⟩ := hfirst
    obtain ⟨r, hr, hresult⟩ := search_spec (f := fun t => matchLoop N t (E.encode p')) hN hx
      (ih hp' (length_skipWildcards_le N hsome)) t'
    rw [← hiff] at hresult
    exact ⟨r, (matchLoop_percent_some hsome hfirst).trans hr, .any hresult⟩

/-- The result of the loop is right, and there is one. -/
theorem decides_matchLoop (hN : E.Reads N)
    (hp : E.tokens (some E.backslash) false p = some ts) (t : List α) :
    ∃ r, matchLoop N (E.encode t) (E.encode p) = .ok r ∧ Decides ts t r := by
  -- on the bytes of the pattern, as the search goes on behind the wildcards
  induction hn : (E.encode p).length using Nat.strongRecOn generalizing p ts t with
  | _ n ih =>
    rcases t with _ | ⟨a, t⟩
    · exact decides_nil hp
    obtain ⟨y, _, hy, hcons⟩ := E.exists_cons a
    rcases p with _ | ⟨c, p⟩
    · cases hp
      refine ⟨.likeFalse, ?_, cons_ne_nil a t⟩
      rw [hcons, E.encode_nil, matchLoop]
    have hlen := length_pos_of_ne_nil (E.ne_nil c)
    rw [E.encode_cons, length_append] at hn
    rcases E.tokens_cases hp with ⟨rfl, d, p, _, rfl, rfl, hts⟩ | ⟨_, hts, hc⟩
    · rw [E.encode_cons, E.encode_cons, E.encode_cons, E.enc_backslash,
        matchLoop_lit fun _ _ _ _ _ _ => matchLoop_quote]
      rw [E.encode_cons, length_append] at hn
      exact decides_lit (ih _ (by omega) hts t rfl)
    have hsmaller : (E.encode p).length < n := by omega
    rcases hc with ⟨rfl, rfl⟩ | ⟨rfl, rfl⟩ | ⟨hspecial, rfl⟩
    · exact decides_percent hN hts
        (fun hp' hle t => ih _ (Nat.lt_of_le_of_lt hle hsmaller) hp' t rfl) a t
    · obtain ⟨r, hr, hdecides⟩ := ih _ hsmaller hts t rfl
      refine ⟨r, ?_, hdecides.one⟩
      rw [hcons, E.encode_cons, E.enc_underscore, singleton_append, matchLoop_underscore,
        ← hcons, hN, hr]
    · rw [E.encode_cons, E.encode_cons, ← nil_append (E.enc c ++ _), matchLoop_lit
        fun x _ _ _ _ hx => matchLoop_byte (hspecial x (hx ▸ mem_cons_self))]
      exact decides_lit (ih _ hsmaller hts t rfl)

theorem matchText_spec (hN : E.Reads N) (hp : ¬ E.EndsInEscape (some E.backslash) p) (t : List α) :
    (matchText N (E.encode t) (E.encode p) = .ok .likeTrue ↔ E.IsLike (some E.backslash) p t) ∧
      (matchText N (E.encode t) (E.encode p) = .ok .likeAbort →
        ∀ s, s <:+ t → ¬ E.IsLike (some E.backslash) p s) := by
  obtain ⟨ts, hts⟩ := Option.ne_none_iff_exists'.mp hp
  have hlike (s : List α) : E.IsLike (some E.backslash) p s ↔ Matches ts s := by
    simp only [Alphabet.IsLike, hts, Option.some.injEq, exists_eq_left']
  obtain ⟨r, hr, hdecides⟩ := decides_matchLoop hN hts t
  simp only [matchText_eq, hlike, hr]
  cases r with
  | likeTrue => exact ⟨iff_of_true rfl hdecides, nofun⟩
  | likeFalse => exact ⟨iff_of_false nofun hdecides, nofun⟩
  | likeAbort => exact ⟨iff_of_false nofun (hdecides t (suffix_refl t)), fun _ => hdecides⟩

end Characters

/-! ### UTF-8 -/

/-- The first byte of a character tells its length, and the others are continuations. -/
theorem utf8_enc (c : Char) :
    ∃ b bs, utf8.enc c = b :: bs ∧ ¬ IsContinuation b ∧ (∀ x ∈ bs, IsContinuation x) ∧
      pgUtfMblen b = bs.length + 1 ∧ (bs = [] ∨ 128 ≤ b) := by
  have hcont : ∀ n < 64, IsContinuation (.ofNat (n + 128)) := by decide
  have hrest (l : List ℕ) : ∀ x ∈ l.map fun n => UInt8.ofNat (n % 64 + 128), IsContinuation x :=
    forall_mem_map.mpr fun n _ => hcont _ (Nat.mod_lt n (by decide))
  have hone : ∀ n < 128, ¬ IsContinuation (.ofNat n) ∧ pgUtfMblen (.ofNat n) = 1 := by decide
  have htwo : ∀ n < 32, ¬ IsContinuation (.ofNat (n + 192)) ∧
      pgUtfMblen (.ofNat (n + 192)) = 2 ∧ 128 ≤ UInt8.ofNat (n + 192) := by decide
  have hthree : ∀ n < 16, ¬ IsContinuation (.ofNat (n + 224)) ∧
      pgUtfMblen (.ofNat (n + 224)) = 3 ∧ 128 ≤ UInt8.ofNat (n + 224) := by decide
  have hfour : ∀ n < 8, ¬ IsContinuation (.ofNat (n + 240)) ∧
      pgUtfMblen (.ofNat (n + 240)) = 4 ∧ 128 ≤ UInt8.ofNat (n + 240) := by decide
  dsimp only [utf8, String.utf8EncodeChar]
  split_ifs with h1 h2 h3
  · have hb := hone _ (Nat.lt_succ_of_le h1)
    exact ⟨_, _, rfl, hb.1, hrest [], hb.2, .inl rfl⟩
  · have hb := htwo _ (Nat.mod_lt (c.val.toNat / 64) (by decide))
    exact ⟨_, _, rfl, hb.1, hrest [_], hb.2.1, .inr hb.2.2⟩
  · have hb := hthree _ (Nat.mod_lt (c.val.toNat / 4096) (by decide))
    exact ⟨_, _, rfl, hb.1, hrest [_, _], hb.2.1, .inr hb.2.2⟩
  · have hb := hfour _ (Nat.mod_lt (c.val.toNat / 262144) (by decide))
    exact ⟨_, _, rfl, hb.1, hrest [_, _, _], hb.2.1, .inr hb.2.2⟩

theorem not_special_of_continuation {b : UInt8} (h : IsContinuation b) : ¬ Special b := by
  rintro (rfl | rfl | rfl) <;> exact absurd h (by decide)

/-! ### The encodings -/

/-- The characters that are bytes. -/
def sbAlphabet : Alphabet UInt8 where
  toCharCode := singleByte
  percent := percent
  underscore := underscore
  backslash := backslash
  enc_percent := rfl
  enc_underscore := rfl
  enc_backslash := rfl
  special a b hb _ := by rw [mem_singleton.mp hb]; rfl

theorem sbAlphabet_reads : sbAlphabet.Reads sbNextChar := fun _ _ => rfl

/-- The characters of UTF-8. -/
def utf8Alphabet : Alphabet Char where
  toCharCode := utf8
  percent := '%'
  underscore := '_'
  backslash := '\\'
  enc_percent := rfl
  enc_underscore := rfl
  enc_backslash := rfl
  special c x hx hspecial := by
    obtain ⟨b, _, henc, -, hcont, -, hascii⟩ := utf8_enc c
    rw [henc] at hx ⊢
    rcases mem_cons.mp hx with rfl | hx
    · rcases hascii with rfl | hge
      · rfl
      · rcases hspecial with rfl | rfl | rfl <;> exact absurd hge (by decide)
    · exact absurd hspecial (not_special_of_continuation (hcont x hx))

theorem utf8Alphabet_reads : utf8Alphabet.Reads utf8NextChar := by
  intro a l
  obtain ⟨b, bs, henc, -, hcont, -⟩ := utf8_enc a
  have hrest : (utf8.encode l).dropWhile IsContinuation = utf8.encode l := by
    cases l with
    | nil => rfl
    | cons c =>
      obtain ⟨b, _, henc, hfirst, -⟩ := utf8_enc c
      rw [utf8.encode_cons, henc, cons_append, dropWhile_cons_of_neg (by simpa using hfirst)]
  change ((utf8.encode (a :: l)).tail).dropWhile _ = utf8.encode l
  rw [utf8.encode_cons, henc, cons_append, tail_cons,
    dropWhile_append_of_pos (by simpa using hcont), hrest]

/-- `MatchText` says whether the text matches, in a single-byte encoding and in UTF-8, and if it
aborts then no suffix of the text matches. -/
theorem matchText_correct :
    (∀ t p : List UInt8, ¬ sbAlphabet.EndsInEscape (some backslash) p →
      (sbMatchText t p = .ok .likeTrue ↔ sbAlphabet.IsLike (some backslash) p t) ∧
      (sbMatchText t p = .ok .likeAbort →
        ∀ s, s <:+ t → ¬ sbAlphabet.IsLike (some backslash) p s)) ∧
    ∀ t p : List Char, ¬ utf8Alphabet.EndsInEscape (some '\\') p →
      (utf8MatchText (utf8.encode t) (utf8.encode p) = .ok .likeTrue ↔
        utf8Alphabet.IsLike (some '\\') p t) ∧
      (utf8MatchText (utf8.encode t) (utf8.encode p) = .ok .likeAbort →
        ∀ s, s <:+ t → ¬ utf8Alphabet.IsLike (some '\\') p s) := by
  constructor
  all_goals intro t p hp
  · have hencode (l : List UInt8) : sbAlphabet.encode l = l := flatMap_singleton' l
    have hspec := matchText_spec sbAlphabet_reads hp t
    rw [hencode, hencode] at hspec
    exact hspec
  · exact matchText_spec utf8Alphabet_reads hp t

/-- The pattern is a wildcard and a quoted percent sign, the text has a character of two bytes. -/
theorem matchText_correct_quotedPercent :
    utf8MatchText (utf8.encode ['é', '%']) (utf8.encode ['_', '\\', '%']) = .ok .likeTrue ↔
      utf8Alphabet.IsLike (some '\\') ['_', '\\', '%'] ['é', '%'] := by
  have hends : ¬ utf8Alphabet.EndsInEscape (some '\\') ['_', '\\', '%'] := by
    rw [Alphabet.EndsInEscape]
    decide
  exact (matchText_correct.2 _ _ hends).1

end PgCutover.Like

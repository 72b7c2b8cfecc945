import Augite.Proofs.DataReadBack

/-!
# The grammar of data

A text without zero bytes is read as a datum exactly if it falls into white space, comments and
lexemes, each as long as it can be, and the grammar derives the datum from the tokens that the
lexemes spell. Nothing else may stand in the text, before the datum or behind it.
-/

namespace Augite.Datum

namespace Lexer

/-! ### Lexemes -/

/-- White space and comments, each closed by the end of its line. -/
inductive IsGap : Text → Prop
  | nil : IsGap []
  | blank {b : UInt8} {t : Text} : isBlank b = true → IsGap t → IsGap (b :: t)
  | comment {c t : Text} {b : UInt8} : (∀ x ∈ c, endsComment x = false) →
      b = byte '\n' ∨ b = byte '\r' → IsGap t → IsGap (byte ';' :: (c ++ b :: t))

/-- White space and comments, the last of which the end of the text may close. -/
def IsFinalGap (t : Text) : Prop :=
  ∃ g c, t = g ++ c ∧ IsGap g ∧
    (c = [] ∨ ∃ body, c = byte ';' :: body ∧ ∀ x ∈ body, endsComment x = false)

/-- Between quotes, the first text stands for the second. -/
inductive Quotes : Text → Text → Prop
  | nil : Quotes [] []
  | byte {b : UInt8} {w u : Text} : b ≠ 0 ∧ b ≠ byte '"' ∧ b ≠ byte '\\' → Quotes w u →
      Quotes (b :: w) (Utf8.encode b.toNat ++ u)
  | escape {e v : UInt8} {w u : Text} : escape? e = some v → Quotes w u →
      Quotes (byte '\\' :: e :: w) (v :: u)
  | hex {h l v : UInt8} {w u : Text} : hexByte? h l = some v → Quotes w u →
      Quotes (byte '\\' :: byte 'x' :: h :: l :: w) (v :: u)

/-- The text spells a token. -/
inductive Lexeme : Text → Token → Prop
  | bracket {b : UInt8} {tok : Token} : bracket? b = some tok → Lexeme [b] tok
  | ellipsis : Lexeme [byte '.', byte '.', byte '.'] .ellipsis
  | string {w u : Text} : Quotes w u → Lexeme (byte '"' :: (w ++ [byte '"'])) (.string u)
  | symbol {w : Text} : IsSymbol w → Lexeme w (.symbol w)
  | sign {b : UInt8} : isSign b = true → Lexeme [b] (.symbol [b])
  | number {n : Nat} {w : Text} : w.IsNumeral n → Lexeme w (.number w)

/-- The whole text falls into gaps and lexemes that spell the tokens; none of the lexemes is
the beginning of a longer one. -/
inductive Lexes : Text → List Token → Prop
  | done {t : Text} : IsFinalGap t → Lexes t []
  | token {g w rest : Text} {tok : Token} {ts : List Token} : IsGap g → Lexeme w tok →
      (∀ v tok', Lexeme v tok' → v <+: w ++ rest → v.length ≤ w.length) → Lexes rest ts →
      Lexes (g ++ (w ++ rest)) (tok :: ts)

/-! ### Gaps -/

theorem IsGap.append {g g' : Text} (h : IsGap g) (h' : IsGap g') : IsGap (g ++ g') := by
  induction h with
  | nil => exact h'
  | blank hb _ ih => exact .blank hb ih
  | @comment c t b hc hb _ ih =>
    rw [List.cons_append, List.append_assoc, List.cons_append]
    exact .comment hc hb ih

theorem isBlank_of_lineEnd {b : UInt8} (h : b = byte '\n' ∨ b = byte '\r') : isBlank b = true := by
  rcases h with rfl | rfl <;> rfl

theorem tokens_comment (rest : Text) :
    tokens (byte ';' :: rest) = tokens (rest.dropWhile fun c => !endsComment c) := by
  have hdrop : (byte ';' :: rest).dropWhile isBlank = byte ';' :: rest :=
    List.dropWhile_cons_of_neg (by decide)
  rw [tokens_of_dropWhile_cons hdrop, if_neg (by decide), if_pos rfl]

theorem dropWhile_comment {c : Text} (hc : ∀ x ∈ c, endsComment x = false) (rest : Text) :
    (c ++ rest).dropWhile (fun x => !endsComment x) = rest.dropWhile fun x => !endsComment x :=
  List.dropWhile_append_of_pos fun x hx => by rw [hc x hx]; rfl

/-- Gaps are passed over. -/
theorem tokens_gap {g : Text} (h : IsGap g) (s : Text) : tokens (g ++ s) = tokens s := by
  induction h with
  | nil => rfl
  | blank hb _ ih => rw [List.cons_append, tokens_blank hb, ih]
  | @comment c t b hc hb _ ih =>
    have hends : endsComment b = true := by rcases hb with rfl | rfl <;> rfl
    rw [List.cons_append, List.append_assoc, tokens_comment, dropWhile_comment hc, List.cons_append,
      List.dropWhile_cons_of_neg (by rw [hends]; decide), tokens_blank (isBlank_of_lineEnd hb), ih]

theorem tokens_finalGap {t : Text} (h : IsFinalGap t) : tokens t = ([], none) := by
  obtain ⟨g, c, rfl, hg, rfl | ⟨body, rfl, hbody⟩⟩ := h
  · rw [tokens_gap hg, tokens_nil]
  · have hall : body.dropWhile (fun x => !endsComment x) = [] := by
      simpa using dropWhile_comment hbody []
    rw [tokens_gap hg, tokens_comment, hall, tokens_nil]

theorem Lexes.gap {g t : Text} {ts : List Token} (hg : IsGap g) (h : Lexes t ts) :
    Lexes (g ++ t) ts := by
  cases h with
  | done hend =>
    obtain ⟨g', c, rfl, hg', hc⟩ := hend
    exact .done ⟨g ++ g', c, (List.append_assoc ..).symm, hg.append hg', hc⟩
  | token hg' hw hmax hrest =>
    rw [← List.append_assoc]
    exact .token (hg.append hg') hw hmax hrest

theorem isGap_of_forall {g : Text} (h : ∀ b ∈ g, isBlank b = true) : IsGap g := by
  induction g with
  | nil => exact .nil
  | cons b g ih =>
    obtain ⟨hb, hg⟩ := List.forall_mem_cons.mp h
    exact .blank hb (ih hg)

/-! ### Lexemes that are read -/

theorem Lexeme.exists_cons {w : Text} {tok : Token} (h : Lexeme w tok) :
    ∃ b r, w = b :: r ∧ begins b = true := by
  cases h with
  | @bracket b _ hb => exact ⟨b, [], rfl, (byte_classes b).1 (by rw [hb]; rfl)⟩
  | ellipsis => exact ⟨_, _, rfl, by decide⟩
  | string => exact ⟨_, _, rfl, by decide⟩
  | symbol hw =>
    obtain ⟨b, r, rfl, hb, -⟩ := hw
    exact ⟨b, r, rfl, ((byte_classes b).2.1 hb).1⟩
  | @sign b hb => exact ⟨b, [], rfl, ((byte_classes b).2.2.2.1 hb).1.1⟩
  | number hw =>
    obtain ⟨sign, body, whole, part, rfl, hbody, rfl | ⟨b, rfl, hb⟩⟩ := hw
    · obtain ⟨b, r, rfl, hb⟩ := hbody.exists_cons
      exact ⟨b, r, rfl, ((byte_classes b).2.2.1 hb).1.1⟩
    · exact ⟨b, body, rfl, ((byte_classes b).2.2.2.1 hb).1.1⟩

theorem Quotes.shows {w u : Text} (h : Quotes w u) : Shows w u := by
  induction h with
  | nil => exact shows_nil
  | byte hb _ ih => exact (shows_byte hb).append ih
  | escape he _ ih => exact (shows_escape he).append ih
  | @hex h l v w u hv _ ih =>
    have hfirst : Shows [Augite.byte '\\', Augite.byte 'x', h, l] [v] := by
      intro rest
      have hne : Augite.byte '\\' ≠ 0 ∧ Augite.byte '\\' ≠ Augite.byte '"' := by decide
      rw [List.cons_append, stringBody.eq_def]
      simp only [hne.1, hne.2, if_false, if_true, List.cons_append, List.nil_append, hv]
      rfl
    exact hfirst.append ih

theorem stringBody_quotes {w u : Text} (h : Quotes w u) (s : Text) :
    stringBody (w ++ byte '"' :: s) = .ok (u, w.length + 1) := by
  have hclose : stringBody (byte '"' :: s) = .ok ([], 1) := by
    rw [stringBody.eq_def]
    rfl
  rw [h.shows, hclose]
  simp only [Except.map, List.append_nil, Nat.add_comm]

/-- What is read as a string stands between quotes. -/
theorem quotes_of_stringBody {s u : Text} {n : Nat} (h : stringBody s = .ok (u, n)) :
    ∃ w rest, s = w ++ byte '"' :: rest ∧ n = w.length + 1 ∧ Quotes w u := by
  induction s using stringBody.induct generalizing u n with
  | case1 | case2 | case4 | case5 | case6 =>
    rw [stringBody.eq_def] at h
    cases h
  | case3 rest =>
    rw [stringBody.eq_def] at h
    cases h
    exact ⟨[], rest, rfl, rfl, .nil⟩
  | case7 a b rest hnone hzero hquote =>
    rw [stringBody.eq_def] at h
    simp [hzero, hquote, hnone] at h
  | case9 e rest hx hnone hzero hquote =>
    rw [stringBody.eq_def] at h
    simp [hzero, hquote, hx, hnone] at h
  | case8 a b rest v hv hzero hquote ih =>
    rw [stringBody.eq_def] at h
    simp only [hzero, hquote, hv, if_false, if_true] at h
    rcases hrest : stringBody rest with e | ⟨u', n'⟩ <;> rw [hrest] at h <;> cases h
    obtain ⟨w, rest', rfl, rfl, hw⟩ := ih hrest
    exact ⟨byte '\\' :: byte 'x' :: a :: b :: w, rest', rfl, rfl, .hex hv hw⟩
  | case10 e rest hx v hv hzero hquote ih =>
    rw [stringBody.eq_def] at h
    simp only [hzero, hquote, hx, hv, if_false, if_true] at h
    rcases hrest : stringBody rest with e | ⟨u', n'⟩ <;> rw [hrest] at h <;> cases h
    obtain ⟨w, rest', rfl, rfl, hw⟩ := ih hrest
    exact ⟨_, rest', rfl, rfl, .escape hv hw⟩
  | case11 b rest hzero hquote hslash ih =>
    rw [stringBody.eq_def] at h
    simp only [hzero, hquote, hslash, if_false] at h
    rcases hrest : stringBody rest with e | ⟨u', n'⟩ <;> rw [hrest] at h <;> cases h
    obtain ⟨w, rest', rfl, rfl, hw⟩ := ih hrest
    exact ⟨b :: w, rest', rfl, rfl, .byte ⟨hzero, hquote, hslash⟩ hw⟩

theorem take_numberTail (t : Text) : t.take (numberTail t).length = numberTail t :=
  (List.prefix_iff_eq_take.mp (numberTail_isPrefix t)).symm

/-- A token that is read is spelled by the bytes that it takes. -/
theorem lexeme_of_token {b : UInt8} {s : Text} {tok : Token} {n : Nat}
    (h : token b s = .ok (tok, n)) : Lexeme (b :: s.take n) tok ∧ n ≤ s.length := by
  unfold token at h
  split at h
  · rename_i ht
    cases h
    exact ⟨.bracket ht, Nat.zero_le _⟩
  split at h
  · rename_i hb
    rcases hbody : stringBody s with e | ⟨u, k⟩ <;> rw [hbody] at h <;> cases h
    obtain ⟨w, rest, rfl, rfl, hw⟩ := quotes_of_stringBody hbody
    refine ⟨?_, by simp⟩
    have htake : (w ++ byte '"' :: rest).take (w.length + 1) = w ++ [byte '"'] := by
      rw [List.take_length_add_append]
      rfl
    rw [hb, htake]
    exact .string hw
  split at h
  · rename_i hb
    split at h
    · rename_i hpoints
      cases h
      have hlength := congrArg List.length hpoints
      rw [List.length_take] at hlength
      refine ⟨?_, by simp at hlength; omega⟩
      rw [hb, hpoints]
      exact .ellipsis
    · cases h
  split at h
  · rename_i hstart
    cases h
    refine ⟨?_, (List.takeWhile_prefix _).length_le⟩
    rw [← List.prefix_iff_eq_take.mp (List.takeWhile_prefix isSymbolByte)]
    exact .symbol ⟨b, _, rfl, hstart, fun c hc => List.mem_takeWhile_imp hc⟩
  split at h
  · rename_i hdigit
    obtain ⟨part, hpart⟩ := numberTail_cons hdigit s
    have htake := take_numberTail (b :: s)
    have hle := (numberTail_isPrefix (b :: s)).length_le
    obtain ⟨whole, frac, hbody⟩ := isUnsigned_numberTail hdigit s
    cases h
    rw [hpart] at htake hle hbody ⊢
    simp only [List.length_cons, List.take_succ_cons, List.drop_one, List.tail_cons] at htake hle ⊢
    rw [htake]
    exact ⟨.number ⟨[], _, whole, frac, rfl, hbody, .inl rfl⟩, by omega⟩
  split at h
  · rename_i hsign
    split at h
    · rename_i hhead
      cases h
      obtain ⟨d, part, rfl⟩ : ∃ d part, s = d :: part := by
        cases s with
        | nil => cases hhead
        | cons d part => exact ⟨d, part, rfl⟩
      obtain ⟨whole, frac, hbody⟩ := isUnsigned_numberTail hhead part
      rw [take_numberTail]
      exact ⟨.number ⟨[b], _, whole, frac, rfl, hbody, .inr ⟨b, rfl, hsign⟩⟩,
        (numberTail_isPrefix _).length_le⟩
    · cases h
      exact ⟨.sign hsign, Nat.zero_le _⟩
  · cases h

/-- A number that a text starts with goes on as far as it can. -/
theorem prefix_numberTail {n : Nat} {t whole part : Text} (h : Text.IsUnsigned n t whole part)
    (s : Text) : t <+: numberTail (t ++ s) := by
  obtain ⟨rfl, -, -, hwhole, hpart⟩ := h
  by_cases hp : part = []
  · have hdigits : whole <+: (whole ++ s).takeWhile Text.isDigit := by
      rw [List.takeWhile_append_of_pos hwhole]
      exact List.prefix_append _ _
    simp only [hp, if_true, List.append_nil]
    unfold numberTail
    simp only
    split
    · split
      · exact hdigits.trans (List.prefix_append _ _)
      · exact hdigits
    · exact hdigits
  · obtain ⟨d, ds, rfl⟩ := List.exists_cons_of_ne_nil hp
    obtain ⟨hd, hds⟩ := List.forall_mem_cons.mp hpart
    have hpoint : Text.isDigit (byte '.') = false := rfl
    have htext : whole ++ byte '.' :: d :: ds ++ s = whole ++ byte '.' :: d :: (ds ++ s) := by simp
    have htake : (whole ++ byte '.' :: d :: (ds ++ s)).takeWhile Text.isDigit = whole := by
      rw [List.takeWhile_append_of_pos hwhole]
      simp [hpoint]
    have hdrop : (whole ++ byte '.' :: d :: (ds ++ s)).dropWhile Text.isDigit =
        byte '.' :: d :: (ds ++ s) := by
      rw [List.dropWhile_append_of_pos hwhole]
      simp [hpoint]
    simp only [hp, if_false]
    unfold numberTail
    rw [htext, htake, hdrop]
    simp only [hd, and_self, if_true]
    rw [List.prefix_append_right_inj, List.cons_prefix_cons, List.cons_prefix_cons,
      List.takeWhile_append_of_pos hds]
    exact ⟨rfl, rfl, List.prefix_append _ _⟩

/-- Where a text starts with a lexeme a token is read, and none that is shorter. -/
theorem token_of_lexeme {v : Text} {tok : Token} (h : Lexeme v tok) {b : UInt8} {s : Text}
    (hv : v <+: b :: s) :
    ∃ tok' n, token b s = .ok (tok', n) ∧ v.length ≤ n + 1 ∧ (v.length = n + 1 → tok' = tok) := by
  cases h with
  | bracket htok =>
    obtain ⟨rfl, -⟩ := List.cons_prefix_cons.mp hv
    exact ⟨tok, 0, by rw [token, htok], le_rfl, fun _ => rfl⟩
  | ellipsis =>
    obtain ⟨rfl, s, rfl⟩ := List.cons_prefix_cons.mp hv
    exact ⟨.ellipsis, 2, rfl, le_rfl, fun _ => rfl⟩
  | @string w u hw =>
    obtain ⟨rfl, s, rfl⟩ := List.cons_prefix_cons.mp hv
    refine ⟨.string u, w.length + 1, ?_, by simp, fun _ => rfl⟩
    have hbracket : bracket? (byte '"') = none := by decide
    rw [token, hbracket, List.append_assoc, List.singleton_append]
    simp only [if_true, stringBody_quotes hw]
    rfl
  | symbol hw =>
    obtain ⟨c, r, rfl, hc, hr⟩ := hw
    obtain ⟨rfl, s, rfl⟩ := List.cons_prefix_cons.mp hv
    have htake : (r ++ s).takeWhile isSymbolByte = r ++ s.takeWhile isSymbolByte :=
      List.takeWhile_append_of_pos hr
    refine ⟨_, _, token_of_symbolStart hc _, ?_, fun hlength => ?_⟩
    · rw [htake]
      simp
    · rw [htake] at hlength ⊢
      have hnil : s.takeWhile isSymbolByte = [] := by simpa using hlength
      rw [hnil, List.append_nil]
  | @sign c hc =>
    obtain ⟨rfl, -⟩ := List.cons_prefix_cons.mp hv
    by_cases hhead : ∀ d ∈ s.head?, Text.isDigit d = false
    · exact ⟨_, _, token_of_sign hc hhead, le_rfl, fun _ => rfl⟩
    · obtain ⟨d, s, rfl, hd⟩ : ∃ d r, s = d :: r ∧ Text.isDigit d = true := by
        cases s with
        | nil => exact absurd (by simp) hhead
        | cons d r => exact ⟨d, r, rfl, by simpa using hhead⟩
      obtain ⟨part, hpart⟩ := numberTail_cons hd s
      refine ⟨_, _, token_of_sign_digit hc hd s, Nat.le_add_left 1 _, fun hlength => ?_⟩
      rw [hpart] at hlength
      cases hlength
  | @number n w hw =>
    obtain ⟨sign, body, whole, frac, rfl, hbody, hsign⟩ := hw
    obtain ⟨d, r, rfl, hd⟩ := hbody.exists_cons
    have hprefix := prefix_numberTail hbody
    rcases hsign with rfl | ⟨c, rfl, hc⟩
    · obtain ⟨rfl, s, rfl⟩ := List.cons_prefix_cons.mp hv
      have hlong := hprefix s
      obtain ⟨part, hpart⟩ := numberTail_cons hd (r ++ s)
      rw [List.cons_append, hpart] at hlong
      refine ⟨_, _, token_of_digit hd hpart, hlong.length_le, fun hlength => ?_⟩
      rw [List.nil_append, hlong.eq_of_length hlength]
    · obtain ⟨rfl, s, rfl⟩ := List.cons_prefix_cons.mp hv
      have hlong := hprefix s
      refine ⟨_, _, token_of_sign_digit hc hd (r ++ s), Nat.succ_le_succ hlong.length_le, fun hlength => ?_⟩
      rw [List.singleton_append, hlong.eq_of_length (Nat.succ_inj.mp hlength)]
      rfl

/-! ### Texts of lexemes -/

/-- The longest lexeme that a text starts with is read as its token. -/
theorem token_of_longest {w rest : Text} {tok : Token} (hw : Lexeme w tok)
    (hmax : ∀ v tok', Lexeme v tok' → v <+: w ++ rest → v.length ≤ w.length) :
    ∃ b r, w = b :: r ∧ begins b = true ∧ token b (r ++ rest) = .ok (tok, r.length) := by
  obtain ⟨b, r, rfl, hb⟩ := hw.exists_cons
  obtain ⟨tok', n, htoken, hle, hsame⟩ := token_of_lexeme (s := r ++ rest) hw (List.prefix_append _ rest)
  obtain ⟨hread, hn⟩ := lexeme_of_token htoken
  have hshort := hmax _ _ hread (List.cons_prefix_cons.mpr ⟨rfl, List.take_prefix _ _⟩)
  rw [List.length_cons, List.length_take, Nat.min_eq_left hn, List.length_cons] at hshort
  rw [List.length_cons] at hle hsame
  obtain rfl : n = r.length := by omega
  exact ⟨b, r, rfl, hb, by rw [← hsame rfl, htoken]⟩

theorem tokens_of_lexes {t : Text} {ts : List Token} (h : Lexes t ts) : tokens t = (ts, none) := by
  induction h with
  | done hend => exact tokens_finalGap hend
  | token hg hw hmax _ ih =>
    obtain ⟨b, r, rfl, hb, htoken⟩ := token_of_longest hw hmax
    rw [tokens_gap hg, List.cons_append, tokens_cons hb htoken, List.drop_left, ih]

/-- A token that is read is the longest lexeme that the text starts with. -/
theorem lexes_token {b : UInt8} {rest : Text} {tok : Token} {n : Nat} {ts : List Token}
    (htoken : token b rest = .ok (tok, n)) (h : Lexes (rest.drop n) ts) :
    Lexes (b :: rest) (tok :: ts) := by
  obtain ⟨hlexeme, hn⟩ := lexeme_of_token htoken
  have hmax : ∀ v tok', Lexeme v tok' → v <+: b :: rest.take n ++ rest.drop n →
      v.length ≤ (b :: rest.take n).length := by
    intro v tok' hv hprefix
    rw [List.cons_append, List.take_append_drop] at hprefix
    obtain ⟨tok'', m, htoken', hle, -⟩ := token_of_lexeme hv hprefix
    rw [htoken] at htoken'
    cases htoken'
    rwa [List.length_cons, List.length_take, Nat.min_eq_left hn]
  have hall := Lexes.token .nil hlexeme hmax h
  rwa [List.nil_append, List.cons_append, List.take_append_drop] at hall

/-- A comment goes on to the end of its line or of the text. -/
theorem comment_cases (t : Text) :
    (∀ x ∈ t, endsComment x = false) ∨ ∃ c b rest, t = c ++ b :: rest ∧
      (∀ x ∈ c, endsComment x = false) ∧ endsComment b = true := by
  induction t with
  | nil => exact .inl nofun
  | cons a t ih =>
    by_cases ha : endsComment a = true
    · exact .inr ⟨[], a, t, rfl, nofun, ha⟩
    · rw [Bool.not_eq_true] at ha
      rcases ih with hall | ⟨c, b, rest, rfl, hc, hb⟩
      · exact .inl (List.forall_mem_cons.mpr ⟨ha, hall⟩)
      · exact .inr ⟨a :: c, b, rest, rfl, List.forall_mem_cons.mpr ⟨ha, hc⟩, hb⟩

theorem lexes_of_tokens {t : Text} {ts : List Token} (hzero : 0 ∉ t) (h : tokens t = (ts, none)) :
    Lexes t ts := by
  have hsplit := List.takeWhile_append_dropWhile (p := isBlank) (l := t)
  have hgap : IsGap (t.takeWhile isBlank) :=
    isGap_of_forall fun b hb => List.mem_takeWhile_imp (p := isBlank) hb
  rw [← hsplit]
  apply Lexes.gap hgap
  match hdrop : t.dropWhile isBlank with
  | [] =>
    rw [tokens_of_dropWhile_nil hdrop] at h
    cases h
    exact .done ⟨[], [], rfl, .nil, .inl rfl⟩
  | b :: rest =>
    rw [hdrop] at hsplit
    have hlt : rest.length < t.length := by
      have hlength := congrArg List.length hsplit
      rw [List.length_append, List.length_cons] at hlength
      omega
    obtain ⟨hb, hrest⟩ : 0 ≠ b ∧ 0 ∉ rest := by
      rw [← hsplit, List.mem_append, List.mem_cons, not_or, not_or] at hzero
      exact hzero.2
    rw [tokens_of_dropWhile_cons hdrop, if_neg (Ne.symm hb)] at h
    split at h
    · rename_i hsemicolon
      subst hsemicolon
      rcases comment_cases rest with hall | ⟨c, e, u, rfl, hc, he⟩
      · have hnone : rest.dropWhile (fun x => !endsComment x) = [] := by
          simpa using dropWhile_comment hall []
        rw [hnone, tokens_nil] at h
        cases h
        exact .done ⟨[], _, rfl, .nil, .inr ⟨rest, rfl, hall⟩⟩
      · -- The line end is white space, so that reading goes on behind it.
        rw [List.mem_append, List.mem_cons, not_or, not_or] at hrest
        have hline : e = byte '\n' ∨ e = byte '\r' := by
          simpa [endsComment, Ne.symm hrest.2.1] using he
        rw [dropWhile_comment hc, List.dropWhile_cons_of_neg (by rw [he]; decide),
          tokens_blank (isBlank_of_lineEnd hline)] at h
        have hshort : u.length < t.length := by
          rw [List.length_append, List.length_cons] at hlt
          omega
        have hcomment := Lexes.gap (.comment hc hline .nil) (lexes_of_tokens hrest.2.2 h)
        rwa [List.cons_append, List.append_assoc] at hcomment
    · rcases htoken : token b rest with e | ⟨tok, n⟩ <;> rw [htoken] at h
      · cases h
      · obtain ⟨rfl, hfault⟩ := Prod.ext_iff.mp h
        have hshort : (rest.drop n).length < t.length := by
          rw [List.length_drop]
          omega
        exact lexes_token htoken (lexes_of_tokens (fun hmem => hrest (List.mem_of_mem_drop hmem))
          (Prod.ext rfl hfault))
termination_by t.length

/-- The tokens of a text without zero bytes are those of its lexemes. -/
theorem lexes_iff {t : Text} (hzero : 0 ∉ t) {ts : List Token} :
    Lexes t ts ↔ tokens t = (ts, none) :=
  ⟨tokens_of_lexes, lexes_of_tokens hzero⟩

end Lexer

/-! ### Reading follows the grammar -/

namespace Reading

variable {α β : Type} {m n : Nat}

theorem value?_bind_eq_some {r : Reading α n}
    {f : α → (rest : List Token) → rest.length < n → Reading β n} {b : β} {rest : List Token}
    (h : (r.bind f).value? = some (b, rest)) :
    ∃ a mid hlt, r.value? = some (a, mid) ∧ (f a mid hlt).value? = some (b, rest) := by
  cases r with
  | ok a mid hlt => exact ⟨a, mid, hlt, rfl, h⟩
  | error => cases h

theorem value?_andThen_eq_some {r : Reading α n}
    {f : α → (rest : List Token) → rest.length < n → Reading β rest.length} {b : β}
    {rest : List Token} (h : (r.andThen f).value? = some (b, rest)) :
    ∃ a mid hlt, r.value? = some (a, mid) ∧ (f a mid hlt).value? = some (b, rest) := by
  obtain ⟨a, mid, hlt, hr, hf⟩ := value?_bind_eq_some h
  exact ⟨a, mid, hlt, hr, (value?_lift _ _).symm.trans hf⟩

theorem value?_map_eq_some {f : α → β} {r : Reading α n} {b : β} {rest : List Token}
    (h : (r.map f).value? = some (b, rest)) : ∃ a, r.value? = some (a, rest) ∧ f a = b := by
  rw [value?_map] at h
  obtain ⟨⟨a, rest'⟩, hr, heq⟩ := Option.map_eq_some_iff.mp h
  cases heq
  exact ⟨a, hr, rfl⟩

end Reading

namespace Reader

theorem value?_take_eq_some {α : Type} {ts : List Token} {cause : Option Token → ReadCause}
    {accept : Token → Option α} {a : α} {rest : List Token}
    (h : (take ts cause accept).value? = some (a, rest)) :
    ∃ tok, ts = tok :: rest ∧ accept tok = some a := by
  cases ts with
  | nil => cases h
  | cons tok ts =>
    rw [take] at h
    split at h
    · rename_i haccept
      cases h
      exact ⟨tok, rfl, haccept⟩
    · cases h

theorem value?_afterEntry_eq_some {n : Nat} {ts rest : List Token} {hlt : ts.length < n} {u : Unit}
    (h : (afterEntry ts hlt).value? = some (u, rest)) :
    ts = .comma :: rest ∨ ts = rest ∧ ∃ tail, ts = .closing .curly :: tail := by
  unfold afterEntry at h
  split at h
  · cases h
    exact .inl rfl
  · cases h
    exact .inr ⟨rfl, _, rfl⟩
  · cases h

/-- An entry has a key, a colon and a datum, and something stands behind it. -/
theorem value?_entries_eq_some {tok : Token} {ts rest : List Token} {es : List (Text × Datum)}
    (hne : tok ≠ .closing .curly) (h : (entries (tok :: ts)).value? = some (es, rest)) :
    ∃ key d es' ts₁ ts₂ ts₃, key? tok = some key ∧ ts = .colon :: ts₁ ∧
      (datum ts₁).value? = some (d, ts₂) ∧
      (ts₂ = .comma :: ts₃ ∨ ts₂ = ts₃ ∧ ∃ tail, ts₂ = .closing .curly :: tail) ∧
      (entries ts₃).value? = some (es', rest) ∧ es = (key, d) :: es' := by
  rw [entries, if_neg hne] at h
  obtain ⟨key, ts₁, _, hkey, hcolon⟩ := Reading.value?_andThen_eq_some h
  obtain ⟨_, htok, hname⟩ := value?_take_eq_some hkey
  cases htok
  obtain ⟨_, ts₂, _, hcolon, hvalue⟩ := Reading.value?_andThen_eq_some hcolon
  obtain ⟨tok', rfl, hmark⟩ := value?_take_eq_some hcolon
  obtain rfl : tok' = .colon := by
    split at hmark
    · assumption
    · cases hmark
  obtain ⟨d, ts₃, _, hd, hnext⟩ := Reading.value?_bind_eq_some hvalue
  obtain ⟨_, ts₄, _, hafter, hmap⟩ := Reading.value?_andThen_eq_some hnext
  obtain ⟨es', hes, rfl⟩ := Reading.value?_map_eq_some hmap
  exact ⟨key, d, es', ts₂, ts₃, ts₄, hname, rfl, hd, value?_afterEntry_eq_some hafter, hes, rfl⟩

mutual

/-- What is read as a datum derives it. -/
theorem derives_of_datum {ts rest : List Token} {d : Datum}
    (h : (datum ts).value? = some (d, rest)) : ∃ us, ts = us ++ rest ∧ Derives us d := by
  match ts with
  | [] | .closing b :: ts | .colon :: ts | .comma :: ts =>
    rw [datum] at h
    cases h
  | .symbol name :: ts =>
    rw [datum] at h
    cases h
    exact ⟨[_], rfl, .symbol name⟩
  | .string contents :: ts =>
    rw [datum] at h
    cases h
    exact ⟨[_], rfl, .string contents⟩
  | .number spelling :: ts =>
    rw [datum] at h
    cases h
    exact ⟨[_], rfl, .number spelling⟩
  | .ellipsis :: ts =>
    rw [datum] at h
    cases h
    exact ⟨[_], rfl, .ellipsis⟩
  | .opening .round :: ts =>
    rw [datum, Reading.value?_lift] at h
    obtain ⟨ds, hds, rfl⟩ := Reading.value?_map_eq_some h
    obtain ⟨us, rfl, hus⟩ := deriveAll_of_items hds
    exact ⟨.opening .round :: (us ++ [.closing .round]), by simp, .list hus⟩
  | .opening .square :: ts =>
    rw [datum, Reading.value?_lift] at h
    obtain ⟨ds, hds, rfl⟩ := Reading.value?_map_eq_some h
    obtain ⟨us, rfl, hus⟩ := deriveAll_of_items hds
    exact ⟨.opening .square :: (us ++ [.closing .square]), by simp, .array hus⟩
  | .opening .curly :: ts =>
    rw [datum, Reading.value?_lift] at h
    obtain ⟨es, hes, rfl⟩ := Reading.value?_map_eq_some h
    obtain ⟨us, rfl, hus⟩ := deriveEntries_of_entries hes
    exact ⟨.opening .curly :: (us ++ [.closing .curly]), by simp, .map hus⟩
termination_by 2 * ts.length

theorem deriveAll_of_items {b : Bracket} {ts rest : List Token} {ds : List Datum}
    (h : (items b ts).value? = some (ds, rest)) :
    ∃ us, ts = us ++ .closing b :: rest ∧ DeriveAll us ds := by
  match ts with
  | [] =>
    rw [items] at h
    cases h
  | tok :: ts =>
    rw [items] at h
    split at h
    · rename_i hclosing
      cases h
      exact ⟨[], by rw [hclosing]; rfl, .nil⟩
    · obtain ⟨d, mid, hlt, hd, hmap⟩ := Reading.value?_andThen_eq_some h
      obtain ⟨ds', hds, rfl⟩ := Reading.value?_map_eq_some hmap
      obtain ⟨us, hus, hderives⟩ := derives_of_datum hd
      obtain ⟨vs, rfl, hall⟩ := deriveAll_of_items hds
      exact ⟨us ++ vs, by rw [hus, List.append_assoc], .cons hderives hall⟩
termination_by 2 * ts.length + 1
decreasing_by all_goals simp only [List.length_cons] at *; omega

theorem deriveEntries_of_entries {ts rest : List Token} {es : List (Text × Datum)}
    (h : (entries ts).value? = some (es, rest)) :
    ∃ us, ts = us ++ .closing .curly :: rest ∧ DeriveEntries us es := by
  match ts with
  | [] =>
    rw [entries] at h
    cases h
  | tok :: ts =>
    by_cases hclosing : tok = .closing .curly
    · rw [entries, if_pos hclosing] at h
      cases h
      exact ⟨[], by rw [hclosing]; rfl, .nil⟩
    · obtain ⟨key, d, es', ts₁, ts₂, ts₃, hkey, hcolon, hd, hnext, hes, rfl⟩ :=
        value?_entries_eq_some hclosing h
      have hlt₁ : ts₁.length < ts.length := by rw [hcolon]; exact Nat.lt_succ_self _
      obtain ⟨us, hus, hderives⟩ := derives_of_datum hd
      rcases hnext with rfl | ⟨rfl, tail, rfl⟩
      · have hlt₃ : ts₃.length < ts₁.length := by
          rw [hus, List.length_append, List.length_cons]
          omega
        obtain ⟨vs, rfl, hentries⟩ := deriveEntries_of_entries hes
        exact ⟨tok :: .colon :: (us ++ .comma :: vs), by simp [hcolon, hus],
          .cons hkey hderives hentries⟩
      · rw [entries, if_pos rfl] at hes
        cases hes
        exact ⟨tok :: .colon :: us, by simp [hcolon, hus], .last hkey hderives⟩
termination_by 2 * ts.length + 1
decreasing_by all_goals simp only [List.length_cons]; omega

end

end Reader

/-- A text is read as a datum if its tokens, of which none is malformed, derive the datum. -/
theorem read_eq_ok {t : Text} {d : Datum} :
    read t = .ok d ↔ ∃ ts, Lexer.tokens t = (ts, none) ∧ Derives ts d := by
  constructor
  · rcases htokens : Lexer.tokens t with ⟨ts, fault⟩
    rw [read, htokens]
    simp only
    rcases hdatum : Reader.datum ts with ⟨d', _ | ⟨tok, rest⟩, hlt⟩ | ⟨cause, stop⟩ <;> intro h
    · -- All tokens are used up, so that a malformed one behind them would have been met.
      cases fault with
      | none =>
        cases h
        have hvalue : (Reader.datum ts).value? = some (d, []) := by rw [hdatum]; rfl
        obtain ⟨us, hus, hderives⟩ := Reader.derives_of_datum hvalue
        rw [List.append_nil] at hus
        exact ⟨ts, rfl, hus ▸ hderives⟩
      | some e => cases h
    all_goals
      cases fault with
      | none => cases h
      | some e =>
        simp only at h
        split at h <;> cases h
  · rintro ⟨ts, htokens, hderives⟩
    have hdatum := Reader.datum_of_derives hderives []
    rw [List.append_nil] at hdatum
    rw [read, htokens]
    simp only
    rcases hr : Reader.datum ts with ⟨d', rest, hlt⟩ | ⟨cause, stop⟩ <;> rw [hr] at hdatum <;>
      cases hdatum
    rfl

/-- Reading accepts exactly the texts of the grammar. -/
theorem read_eq_ok_iff {t : Text} (hzero : 0 ∉ t) {d : Datum} :
    read t = .ok d ↔ ∃ ts, Lexer.Lexes t ts ∧ Derives ts d := by
  rw [read_eq_ok]
  exact exists_congr fun ts => and_congr_left fun _ => (Lexer.lexes_iff hzero).symm

/-- A map with comments, a comma at its end, a number in front of an ellipsis and an escape. -/
def excerpt : Text := ";; a\n\x7bk: [1...], \"\\x41\": (- x),\x7d ; b"

theorem excerpt_read : 0 ∉ excerpt ∧ ∃ d ts, read excerpt = .ok d ∧ Lexer.Lexes excerpt ts ∧
    Derives ts d := by
  have hzero : 0 ∉ excerpt := by decide +kernel
  have hok : (read excerpt).isOk = true := by decide +kernel
  rcases h : read excerpt with e | d
  · rw [h] at hok
    cases hok
  · obtain ⟨ts, hts, hderives⟩ := (read_eq_ok_iff hzero).mp h
    exact ⟨hzero, d, ts, rfl, hts, hderives⟩

end Augite.Datum

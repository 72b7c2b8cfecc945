import Augite.Proofs.Rendering
import Augite.Proofs.ParseEquations

/-!
# Reading what was written

The lexemes of a tree are read as that tree, whatever follows it: an expression up to the
symbol that closes it, a statement up to a lexeme that does not continue it. Hence a program
that was read and is written down is read as itself.
-/

namespace Augite

namespace Outcome

variable {α β : Type} {m n : Nat}

/-- Reading succeeds with the value `a` and leaves the feed `t`. -/
def Reads (o : Outcome α n) (a : α) (t : Feed) : Prop := ∃ h, o = .ok a t h

variable {a : α} {b : β} {t u : Feed}

theorem Reads.bind {o : Outcome α n} {f : α → (t : Feed) → t.size < n → Outcome β n}
    (ho : o.Reads a t) (hf : ∀ h, (f a t h).Reads b u) : (o.bind f).Reads b u := by
  obtain ⟨h, rfl⟩ := ho
  exact hf h

theorem Reads.lift {o : Outcome α m} (ho : o.Reads a t) (h : m ≤ n) : (o.lift h).Reads a t := by
  obtain ⟨k, rfl⟩ := ho
  exact ⟨_, rfl⟩

theorem Reads.andThen {o : Outcome α n} {f : α → (t : Feed) → t.size < n → Outcome β t.size}
    (ho : o.Reads a t) (hf : ∀ h, (f a t h).Reads b u) : (o.andThen f).Reads b u :=
  ho.bind fun h => (hf h).lift _

theorem Reads.map {o : Outcome α n} (ho : o.Reads a t) (f : α → β) :
    (o.map f).Reads (f a) t :=
  ho.bind fun h => ⟨h, rfl⟩

theorem Reads.into {o : Outcome α m} {h : m ≤ n} {f : α → (t : Feed) → t.size < m → Outcome β n}
    (ho : o.Reads a t) (hf : ∀ h, (f a t h).Reads b u) : (o.into h f).Reads b u := by
  obtain ⟨k, rfl⟩ := ho
  exact hf k

end Outcome

namespace Feed

/-- The feed of lexemes without positions. -/
def ofLexemes (libs : List Library) (ls : List Lexeme) : Feed :=
  ⟨ls.map fun l => ⟨l, .none⟩, .none, libs⟩

variable {libs : List Library} {ks : List Lexeme}

theorem ofLexemes_cons (l : Lexeme) :
    ofLexemes libs (l :: ks) = ⟨⟨l, .none⟩ :: (ofLexemes libs ks).rest, .none, libs⟩ := rfl

theorem eq_of_rest {ts : List Token} (h : (ofLexemes libs ks).rest = ts) :
    ks = ts.map Token.lexeme := by
  rw [← h, ofLexemes, List.map_map]
  exact (List.map_id ks).symm

theorem symbol_reads (x : Symbol) :
    ((ofLexemes libs (.symbol x :: ks)).symbol x).Reads .none (ofLexemes libs ks) := by
  rw [symbol, ofLexemes_cons, take_cons, if_pos rfl]
  exact ⟨_, rfl⟩

theorem keyword_reads (k : Keyword) :
    ((ofLexemes libs (.keyword k :: ks)).keyword k).Reads .none (ofLexemes libs ks) := by
  rw [keyword, ofLexemes_cons, take_cons, if_pos rfl]
  exact ⟨_, rfl⟩

theorem ident_reads (name : Text) :
    (ofLexemes libs (.ident name :: ks)).ident.Reads (name, .none) (ofLexemes libs ks) := by
  rw [ident, ofLexemes_cons, take_cons]
  exact ⟨_, rfl⟩

end Feed

namespace Parse

open Outcome Feed Node

variable {libs : List Library} {spell : Double → Text}

/-- The tree without positions. -/
abbrev unplaced (n : Node) : Node := n.strip fun _ => .none

abbrev unplacedAll (ns : List Node) : List Node := stripAll (fun _ => .none) ns

/-! ### Expressions -/

/-- An expression ends in front of these lexemes. -/
def Ends : List Lexeme → Prop
  | .symbol x :: _ => x = .rparen ∨ x = .comma ∨ x = .semicolon ∨ x = .rbracket
  | _ => False

theorem Ends.rparen (ks : List Lexeme) : Ends (.symbol .rparen :: ks) := .inl rfl

theorem Ends.semicolon (ks : List Lexeme) : Ends (.symbol .semicolon :: ks) := .inr (.inr (.inl rfl))

theorem climb_reads {n least : Nat} {left : Node} {ks : List Lexeme} (hks : Ends ks)
    (h : (ofLexemes libs ks).size < n) :
    (climb n least left (ofLexemes libs ks) h).Reads left (ofLexemes libs ks) := by
  match ks, hks with
  | .symbol x :: ks, hx =>
    have hop : binaryOp? (.symbol x) = none := by
      obtain rfl | rfl | rfl | rfl := hx <;> rfl
    refine ⟨h, ?_⟩
    have := climb_cons ⟨.symbol x, .none⟩ (ofLexemes libs ks).rest .none libs n least left h
    rw [hop] at this
    exact this

theorem climbing_reads_of_unary {s : Feed} {n : Node} {ks : List Lexeme} (hks : Ends ks)
    (least : Nat) (h : (unary s).Reads n (ofLexemes libs ks)) :
    (climbing s least).Reads n (ofLexemes libs ks) := by
  rw [climbing]
  exact h.bind fun _ => climb_reads hks _

theorem primary_reads {s : Feed} {n : Node} {l : Lexeme} {ks : List Lexeme} (hl : unaryOp? l = none)
    (h : ∀ m hm, (primary m ⟨l, .none⟩ (ofLexemes libs ks) hm).Reads n s) :
    (unary (ofLexemes libs (l :: ks))).Reads n s := by
  rw [ofLexemes_cons, unary_cons, hl]
  exact h _ _

/-- An expression in parentheses. -/
theorem group_reads {x : Node} {ks ls : List Lexeme}
    (h : (climbing (ofLexemes libs ls) 1).Reads x (ofLexemes libs (.symbol .rparen :: ks))) :
    (unary (ofLexemes libs (.symbol .lparen :: ls))).Reads x (ofLexemes libs ks) := by
  refine primary_reads rfl fun m hm => ?_
  rw [primary_group]
  exact (h.andThen fun _ => (symbol_reads .rparen).map _).lift _

theorem exists_binarySymbol {op : BinaryOp} (h : op.IsWritten) : ∃ x level, 1 ≤ level ∧
    binaryOp? (.symbol x) = some (op, level) ∧
    ∀ ks, operatorLexemes op.spelling ks = .symbol x :: ks := by
  cases op with
  | other s => simp [BinaryOp.IsWritten, BinaryOp.all] at h
  | or => exact ⟨.or, 1, by decide, rfl, fun _ => rfl⟩
  | and => exact ⟨.and, 2, by decide, rfl, fun _ => rfl⟩
  | eq => exact ⟨.eq, 3, by decide, rfl, fun _ => rfl⟩
  | ne => exact ⟨.ne, 3, by decide, rfl, fun _ => rfl⟩
  | lt => exact ⟨.lt, 4, by decide, rfl, fun _ => rfl⟩
  | le => exact ⟨.le, 4, by decide, rfl, fun _ => rfl⟩
  | gt => exact ⟨.gt, 4, by decide, rfl, fun _ => rfl⟩
  | ge => exact ⟨.ge, 4, by decide, rfl, fun _ => rfl⟩
  | add => exact ⟨.plus, 5, by decide, rfl, fun _ => rfl⟩
  | sub => exact ⟨.minus, 5, by decide, rfl, fun _ => rfl⟩
  | mul => exact ⟨.star, 6, by decide, rfl, fun _ => rfl⟩
  | div => exact ⟨.slash, 6, by decide, rfl, fun _ => rfl⟩
  | rem => exact ⟨.percent, 6, by decide, rfl, fun _ => rfl⟩

theorem exists_unarySymbol {op : UnaryOp} (h : op.IsWritten) : ∃ x,
    unaryOp? (.symbol x) = some op ∧ ∀ ks, operatorLexemes op.spelling ks = .symbol x :: ks := by
  obtain rfl | rfl := h
  · exact ⟨.minus, rfl, fun _ => rfl⟩
  · exact ⟨.bang, rfl, fun _ => rfl⟩

theorem climb_operator_reads {n least level : Nat} {left right : Node} {x : Symbol} {op : BinaryOp}
    {ls ks : List Lexeme} (hop : binaryOp? (.symbol x) = some (op, level)) (hlevel : least ≤ level)
    (hright : (climbing (ofLexemes libs ls) (level + 1)).Reads right (ofLexemes libs ks))
    (hks : Ends ks) (h : (ofLexemes libs (.symbol x :: ls)).size < n) :
    (climb n least left (ofLexemes libs (.symbol x :: ls)) h).Reads
      (.binary (.at_ .none) op left right) (ofLexemes libs ks) := by
  have hcons := climb_cons ⟨.symbol x, .none⟩ (ofLexemes libs ls).rest .none libs n least left h
  rw [hop] at hcons
  simp only [if_neg (Nat.not_lt.mpr hlevel)] at hcons
  exact hcons ▸ hright.into fun _ => climb_reads hks _

/-- What an expression starts with. -/
def Starts : Lexeme → Prop
  | .symbol x => x = .lparen ∨ x = .minus ∨ x = .bang
  | .keyword k => k = .true_ ∨ k = .false_
  | .endOfInput => False
  | _ => True

variable (spell) in
theorem exprLexemes_starts {n : Node} (hn : n.IsExpr) (hl : n.Legible libs) (ks : List Lexeme) :
    ∃ l ls, n.exprLexemes spell ks = l :: ls ∧ Starts l := by
  cases n with
  | int | float | char | string | var | call | dot => exact ⟨_, _, rfl, trivial⟩
  | bool m b => cases b <;> exact ⟨_, _, rfl, by simp [Starts]⟩
  | binary => exact ⟨_, _, rfl, .inl rfl⟩
  | unary m op x =>
    obtain rfl | rfl := hl.1
    · exact ⟨_, _, rfl, .inr (.inl rfl)⟩
    · exact ⟨_, _, rfl, .inr (.inr rfl)⟩
  | _ => exact hn.elim

theorem not_atSymbol_of_starts {n : Node} (hn : n.IsExpr) (hl : n.Legible libs) {x : Symbol}
    (hx : ¬ Starts (.symbol x)) (ks : List Lexeme) :
    ¬ (ofLexemes libs (n.exprLexemes spell ks)).atSymbol x = true := by
  obtain ⟨l, ls, hls, hl⟩ := exprLexemes_starts spell hn hl ks
  rw [hls]
  intro h
  obtain rfl : l = .symbol x := by simpa [atSymbol, cur, peek, ofLexemes] using h
  exact hx hl

variable (spell) in
theorem ends_operandLexemes {closing : Symbol} (hclosing : closing = .rparen ∨ closing = .rbracket)
    (xs : List Node) (ks : List Lexeme) : Ends (operandLexemes spell closing false xs ks) := by
  cases xs with
  | nil =>
    obtain rfl | rfl := hclosing
    · exact .inl rfl
    · exact .inr (.inr (.inr rfl))
  | cons x xs => exact .inr (.inl rfl)

theorem not_atSymbol_of_ends {ks : List Lexeme} (hks : Ends ks) {x : Symbol}
    (hx : ∀ rest, ¬ Ends (.symbol x :: rest)) : ¬ (ofLexemes libs ks).atSymbol x = true := by
  match ks, hks with
  | .symbol y :: ks, hy =>
    intro h
    obtain rfl : y = x := by simpa [atSymbol, cur, peek, ofLexemes] using h
    exact hx ks hy

mutual

/-- An expression is read up to the symbol that closes it. -/
theorem climbing_reads (n : Node) (hn : n.IsExpr) (hl : n.Legible libs) (ks : List Lexeme)
    (hks : Ends ks) :
    (climbing (ofLexemes libs (n.exprLexemes spell ks)) 1).Reads (unplaced n)
      (ofLexemes libs ks) := by
  cases n with
  | int | float | char | string =>
    refine climbing_reads_of_unary hks 1 (primary_reads rfl fun m hm => ?_)
    exact ⟨hm, primary_literal hm .none rfl⟩
  | bool _ b =>
    refine climbing_reads_of_unary hks 1 (primary_reads rfl fun m hm => ?_)
    cases b <;> exact ⟨hm, primary_literal hm .none rfl⟩
  | var _ name =>
    refine climbing_reads_of_unary hks 1 (primary_reads rfl fun m hm => ?_)
    have hparen : ¬ (ofLexemes libs ks).atSymbol .lparen = true :=
      not_atSymbol_of_ends hks (by simp [Ends])
    have hdot : ¬ (ofLexemes libs ks).atSymbol .dot = true :=
      not_atSymbol_of_ends hks (by simp [Ends])
    rw [primary_ident, if_neg hparen, if_neg hdot]
    exact ⟨_, rfl⟩
  | binary _ op l r =>
    obtain ⟨hop, hl, hr⟩ := hl
    obtain ⟨x, level, hlevel, hx, hlexemes⟩ := exists_binarySymbol hop
    rw [exprLexemes, hlexemes, climbing]
    refine (group_reads (climbing_reads l hn.1 hl _ (.rparen _))).bind fun h => ?_
    have hright := group_reads (climbing_reads r hn.2 hr _ (.rparen ks))
    exact climb_operator_reads hx hlevel (climbing_reads_of_unary hks _ hright) hks h
  | unary _ op x =>
    obtain ⟨hop, hl⟩ := hl
    obtain ⟨y, hy, hlexemes⟩ := exists_unarySymbol hop
    have hoperand := group_reads (climbing_reads x hn hl _ (.rparen ks))
    refine climbing_reads_of_unary hks 1 ?_
    rw [exprLexemes, hlexemes, ofLexemes_cons, unary_cons, hy]
    exact (hoperand.map _).lift _
  | call _ name xs =>
    have hargs := operands_reads .rparen (.inl rfl) true xs hn hl.2 ks
    refine climbing_reads_of_unary hks 1 (primary_reads rfl fun m hm => ?_)
    rw [primary_ident, if_pos (atSymbol_of_rest rfl)]
    exact (hargs.map _).lift _
  | dot a xs =>
    refine climbing_reads_of_unary hks 1 (primary_reads rfl fun m hm => ?_)
    rw [primary_ident, if_neg (not_atSymbol fun _ _ h => by cases h),
      if_pos (atSymbol_of_rest rfl)]
    refine ((ident_reads a.member).bind fun h => ?_).lift _
    obtain ⟨mark, receiver, name, member, parens⟩ := a
    cases parens with
    | true =>
      have hargs := operands_reads .rparen (.inl rfl) true xs hn.1 hl.2.2 ks
      rw [if_pos (atSymbol_of_rest rfl)]
      exact (hargs.map _).lift _
    | false =>
      obtain rfl := hn.2 rfl
      have hparen : ¬ (ofLexemes libs ks).atSymbol .lparen = true :=
        not_atSymbol_of_ends hks (by simp [Ends])
      exact ⟨h, if_neg hparen⟩
  | _ => exact hn.elim

theorem operands_reads (closing : Symbol) (hclosing : closing = .rparen ∨ closing = .rbracket)
    (first : Bool) (xs : List Node) (hxs : AllExpr xs) (hl : AllLegible libs xs)
    (ks : List Lexeme) :
    (operands (ofLexemes libs (operandLexemes spell closing first xs ks)) closing first).Reads
      (unplacedAll xs) (ofLexemes libs ks) := by
  rw [operands]
  cases xs with
  | nil =>
    rw [operandLexemes, if_pos (atSymbol_of_rest rfl)]
    exact (symbol_reads closing).map _
  | cons x xs =>
    have hexpr := climbing_reads x hxs.1 hl.1 _ (ends_operandLexemes spell hclosing xs ks)
    have hrest := operands_reads closing hclosing false xs hxs.2 hl.2 ks
    cases first with
    | true =>
      have hat : ¬ Starts (.symbol closing) := by
        obtain rfl | rfl := hclosing <;> simp [Starts]
      rw [operandLexemes, separated, if_pos rfl, if_neg (not_atSymbol_of_starts hxs.1 hl.1 hat _),
        if_pos rfl]
      exact hexpr.andThen fun _ => hrest.map _
    | false =>
      have hat : ¬ (ofLexemes libs (operandLexemes spell closing false (x :: xs) ks)).atSymbol
          closing = true := by
        obtain rfl | rfl := hclosing <;> exact not_atSymbol fun _ _ h => by cases h
      rw [if_neg hat, if_neg Bool.false_ne_true]
      exact (symbol_reads .comma).andThen fun _ => hexpr.andThen fun _ => hrest.map _

end

theorem expression_reads {n : Node} (hn : n.IsExpr) (hl : n.Legible libs) {ks : List Lexeme}
    (hks : Ends ks) :
    (expression (ofLexemes libs (n.exprLexemes spell ks))).Reads (unplaced n)
      (ofLexemes libs ks) :=
  climbing_reads n hn hl ks hks

/-! ### Types and declarations -/

variable (libs) in
theorem scalarType_reads {k : Kind} (hk : k.isScalar = true) (allowVoid : Bool)
    (ks : List Lexeme) :
    (typeName (ofLexemes libs (.keyword k.keyword :: ks)) allowVoid).Reads (.scalar k)
      (ofLexemes libs ks) := by
  have hscalar : scalarType? (.keyword k.keyword) = some (.scalar k) := by
    cases k <;> first | rfl | cases hk
  rw [ofLexemes_cons, typeName_cons, typeAfter_scalar _ _ _ hscalar]
  exact ⟨_, rfl⟩

theorem container_reads (lib : Library) {l : Lexeme} (hl : library? l = some lib)
    (hlib : lib ∈ libs) {k : Kind} (hk : k.isScalar = true) (allowVoid : Bool)
    (ks : List Lexeme) :
    (typeName (ofLexemes libs (l :: .symbol .lt :: .keyword k.keyword :: .symbol .gt :: ks))
      allowVoid).Reads (containerOf lib k) (ofLexemes libs ks) := by
  have hincluded : libs.contains lib = true := List.contains_iff_mem.mpr hlib
  have helem := scalarType_reads libs hk false (.symbol .gt :: ks)
  rw [ofLexemes_cons, typeName_cons, typeAfter_library _ _ _ hl]
  rw [if_pos hincluded]
  refine ((symbol_reads .lt).andThen fun _ => helem.andThen fun _ => ?_).lift _
  rw [if_pos (show (Ty.scalar k).kind.isScalar = true from hk)]
  exact (symbol_reads .gt).map _

/-- A type other than `void` is read wherever a type may stand. -/
theorem typeName_reads {t : Ty} (ht : t.IsWritten) (hl : t.Legible libs) (allowVoid : Bool)
    (ks : List Lexeme) :
    (typeName (ofLexemes libs (t.lexemes ks)) allowVoid).Reads t (ofLexemes libs ks) := by
  cases ht with
  | @scalar k hk =>
    have hlexemes : (Ty.scalar k).lexemes ks = .keyword k.keyword :: ks := by
      cases k <;> first | rfl | cases hk
    rw [hlexemes]
    exact scalarType_reads libs hk allowVoid ks
  | list hk => exact container_reads .list rfl hl hk allowVoid ks
  | graph hk => exact container_reads .graph rfl hl hk allowVoid ks
  | class_ _ =>
    change (typeName (ofLexemes libs (.ident _ :: ks)) allowVoid).Reads _ _
    rw [ofLexemes_cons, typeName_cons, typeAfter_ident]
    exact ⟨_, rfl⟩

theorem declaration_reads {name : Text} {t : Ty} {x : Node} {ls ks : List Lexeme}
    (ht : t.IsWritten) (hl : t.Legible libs)
    (h : ∀ n pos hn, (declared n .none name pos t (ofLexemes libs ls) hn).Reads x
      (ofLexemes libs ks)) :
    (simple (ofLexemes libs (.ident name :: .symbol .colon :: t.lexemes ls))).Reads x
      (ofLexemes libs ks) := by
  have hsimple : simple (ofLexemes libs (.ident name :: .symbol .colon :: t.lexemes ls)) =
      declaration (ofLexemes libs (.ident name :: .symbol .colon :: t.lexemes ls)) := by
    unfold simple
    rfl
  rw [hsimple]
  refine (ident_reads name).andThen fun _ => (symbol_reads .colon).andThen fun _ => ?_
  exact (typeName_reads ht hl false ls).bind fun hn => h _ _ hn

variable (spell) in
theorem scalarInitializer_reads (t : Ty) {n : Node} (hn : n.IsExpr) (hl : n.Legible libs)
    {ks : List Lexeme} (hks : Ends ks) :
    (scalarInitializer (ofLexemes libs (.symbol .assign :: n.exprLexemes spell ks)) t).Reads
      (unplaced n) (ofLexemes libs ks) := by
  refine (symbol_reads .assign).andThen fun _ => ?_
  rw [if_neg (not_atSymbol_of_starts hn hl (by simp [Starts]) ks)]
  exact expression_reads hn hl hks

variable (spell) in
theorem listInitializer_reads {xs : List Node} (hxs : AllExpr xs) (hl : AllLegible libs xs)
    (ks : List Lexeme) :
    (listInitializer (ofLexemes libs (.symbol .assign :: .symbol .lbracket ::
      operandLexemes spell .rbracket true xs ks))).Reads (unplacedAll xs) (ofLexemes libs ks) := by
  refine (symbol_reads .assign).andThen fun _ => ?_
  rw [if_pos (atSymbol_of_rest rfl)]
  exact (symbol_reads .lbracket).andThen fun _ =>
    operands_reads .rbracket (.inr rfl) true xs hxs hl ks

/-- The lexemes do not start a declaration or an assignment. -/
def Plainly : List Lexeme → Prop
  | .ident _ :: .symbol .colon :: _ | .ident _ :: .symbol .assign :: _ => False
  | .ident _ :: .symbol .dot :: .ident _ :: .symbol .assign :: _ => False
  | _ => True

theorem simple_of_plainly {ls : List Lexeme} (h : Plainly ls) :
    simple (ofLexemes libs ls) =
      (expression (ofLexemes libs ls)).map (.exprStmt (.at_ (ofLexemes libs ls).cur.pos)) := by
  apply simple_expression
  · intro name p q rest hls
    rw [eq_of_rest hls] at h
    exact h
  · intro name p q rest hls
    rw [eq_of_rest hls] at h
    exact h
  · intro name p q member r t rest hls
    rw [eq_of_rest hls] at h
    exact h

theorem plainly_exprLexemes {n : Node} (hn : n.IsExpr) (hl : n.Legible libs) {ks : List Lexeme}
    (hks : Ends ks) : Plainly (n.exprLexemes spell ks) := by
  match ks, hks with
  | .symbol y :: ks, hy =>
    cases n with
    | var m name => obtain rfl | rfl | rfl | rfl := hy <;> trivial
    | call m name xs => trivial
    | dot a xs =>
      obtain ⟨mark, receiver, name, member, parens⟩ := a
      cases parens with
      | true => trivial
      | false => obtain rfl | rfl | rfl | rfl := hy <;> trivial
    | unary m op x => obtain rfl | rfl := hl.1 <;> trivial
    | int | float | char | string | bool | binary => trivial
    | _ => exact hn.elim

/-- An expression that is a statement is not mistaken for a declaration or an assignment. -/
theorem exprStmt_reads {n : Node} (hn : n.IsExpr) (hl : n.Legible libs) {ks : List Lexeme}
    (hks : Ends ks) :
    (simple (ofLexemes libs (n.exprLexemes spell ks))).Reads (.exprStmt (.at_ .none) (unplaced n))
      (ofLexemes libs ks) := by
  have hpos : (ofLexemes libs (n.exprLexemes spell ks)).cur.pos = .none := by
    obtain ⟨l, ls, hls, _⟩ := exprLexemes_starts spell hn hl ks
    rw [hls]
    rfl
  rw [simple_of_plainly (plainly_exprLexemes hn hl hks), hpos]
  exact (expression_reads hn hl hks).map _

variable (spell) in
/-- A simple statement is read up to the symbol behind it. -/
theorem simple_reads {n : Node} (hn : n.IsSimple) (hl : n.Legible libs) {ks : List Lexeme}
    (hks : Ends ks) :
    (simple (ofLexemes libs (n.simpleLexemes spell ks))).Reads (unplaced n)
      (ofLexemes libs ks) := by
  have hassign : (ofLexemes libs ks).atSymbol .assign = false :=
    eq_false_of_ne_true (not_atSymbol_of_ends hks (by simp [Ends]))
  cases n with
  | varDecl m name t =>
    obtain ⟨hwritten, hkind⟩ := hn
    refine declaration_reads hwritten hl.2 fun n pos h => ?_
    simp only [declared, hassign, Bool.false_eq_true, if_false]
    cases hwritten with
    | list => simp [Ty.listOf, Kind.isScalar] at hkind
    | graph => simp [Ty.graphOf, Kind.isScalar] at hkind
    | class_ => exact ⟨h, rfl⟩
    | @scalar k hk => cases k <;> first | exact ⟨h, rfl⟩ | cases hk
  | varDef m name t x =>
    obtain ⟨hwritten, hkind, hx⟩ := hn
    have hvalue := scalarInitializer_reads spell t hx hl.2.2 hks
    refine declaration_reads hwritten hl.2.1 fun n pos h => ?_
    cases hwritten with
    | @scalar k hk =>
      have hmap := hvalue.map (varDef (.at_ .none) name (.scalar k))
      cases k <;> first | exact hmap.lift (Nat.le_of_lt h) | cases hk
    | _ => cases hkind
  | assign m name x =>
    exact ((expression_reads hn hl.2 hks).map _).lift (Nat.le_add_right _ 2)
  | fieldAssign m a xs x =>
    obtain ⟨rfl, hparens, hx⟩ := hn
    obtain ⟨mark, receiver, name, member, parens⟩ := a
    obtain rfl : parens = false := hparens
    exact ((expression_reads hx hl.2.2 hks).map _).lift (Nat.le_add_right _ 4)
  | listDecl m name k xs =>
    have helements := listInitializer_reads spell hn.2 hl.2.2 ks
    refine declaration_reads (.list hn.1) hl.2.1 fun n pos h => ?_
    exact (helements.map _).lift (Nat.le_of_lt h)
  | graphDecl m name k =>
    refine declaration_reads (.graph hn) hl.2 fun n pos h => ?_
    simp only [declared, hassign]
    exact ⟨h, rfl⟩
  | exprStmt m x => exact exprStmt_reads hn hl hks
  | _ => exact hn.elim

/-! ### Statements -/

variable (spell) in
theorem condition_reads {n : Node} (hn : n.IsExpr) (hl : n.Legible libs) (ks : List Lexeme) :
    (condition (ofLexemes libs (n.conditionLexemes spell ks))).Reads (unplaced n)
      (ofLexemes libs ks) := by
  refine (symbol_reads .lparen).andThen fun _ => ?_
  exact (expression_reads hn hl (.rparen _)).andThen fun _ => (symbol_reads .rparen).map _

variable (spell) in
theorem simpleLexemes_starts {n : Node} (hn : n.IsSimple) (hl : n.Legible libs)
    (ks : List Lexeme) : ∃ l ls, n.simpleLexemes spell ks = l :: ls ∧ Starts l := by
  cases n with
  | varDecl | varDef | assign | fieldAssign | listDecl | graphDecl => exact ⟨_, _, rfl, trivial⟩
  | exprStmt m x => exact exprLexemes_starts spell hn hl ks
  | _ => exact hn.elim

theorem statement_of_starts {l : Lexeme} (hl : Starts l) (ls : List Lexeme) :
    statement (ofLexemes libs (l :: ls)) = simpleStatement (ofLexemes libs (l :: ls)) := by
  rw [statement]
  cases l with
  | keyword k => obtain rfl | rfl := hl <;> rfl
  | _ => rfl

variable (spell) in
theorem simpleStatement_reads {n : Node} (hn : n.IsSimple) (hl : n.Legible libs)
    (ks : List Lexeme) :
    (statement (ofLexemes libs (n.simpleLexemes spell (.symbol .semicolon :: ks)))).Reads
      (unplaced n) (ofLexemes libs ks) := by
  have hread := simple_reads spell hn hl (.semicolon ks)
  obtain ⟨l, ls, hls, hstart⟩ := simpleLexemes_starts spell hn hl (.symbol .semicolon :: ks)
  rw [hls] at hread ⊢
  rw [statement_of_starts hstart]
  exact hread.andThen fun _ => (symbol_reads .semicolon).map _

theorem returned_reads {n : Node} (hn : n.IsExpr) (hl : n.Legible libs) (ks : List Lexeme) :
    (returned (ofLexemes libs (n.exprLexemes spell (.symbol .semicolon :: ks)))).Reads
      (some (unplaced n)) (ofLexemes libs ks) := by
  rw [returned, if_neg (not_atSymbol_of_starts hn hl (by simp [Starts]) _)]
  refine (expression_reads hn hl (.semicolon _)).andThen fun _ => ?_
  exact (symbol_reads .semicolon).map _

theorem printed_reads {n : Node} (hn : n.IsExpr) (hl : n.Legible libs) (ks : List Lexeme) :
    (printed (ofLexemes libs (n.conditionLexemes spell (.symbol .semicolon :: ks)))).Reads
      (unplaced n) (ofLexemes libs ks) :=
  (condition_reads spell hn hl _).andThen fun _ => (symbol_reads .semicolon).map _

theorem forHead_reads {init test step : Node} (hinit : init.IsSimple) (htest : test.IsExpr)
    (hstep : step.IsSimple) (hl : init.Legible libs) (hl' : test.Legible libs)
    (hl'' : step.Legible libs) (ks : List Lexeme) :
    (forHead (ofLexemes libs (.symbol .lparen :: simpleLexemes spell init (.symbol .semicolon ::
      exprLexemes spell test (.symbol .semicolon :: simpleLexemes spell step
        (.symbol .rparen :: ks)))))).Reads (unplaced init, unplaced test, unplaced step)
      (ofLexemes libs ks) := by
  refine (symbol_reads .lparen).andThen fun _ => ?_
  refine (simple_reads spell hinit hl (.semicolon _)).andThen fun _ => ?_
  refine (symbol_reads .semicolon).andThen fun _ => ?_
  refine (expression_reads htest hl' (.semicolon _)).andThen fun _ => ?_
  refine (symbol_reads .semicolon).andThen fun _ => ?_
  exact (simple_reads spell hstep hl'' (.rparen _)).andThen fun _ => (symbol_reads .rparen).map _

/-- A conditional ends in front of these lexemes. -/
def NoElse (ks : List Lexeme) : Prop := ∀ rest, ks ≠ .keyword .else_ :: rest

theorem not_atKeyword_of_noElse {ks : List Lexeme} (hks : NoElse ks) :
    ¬ (ofLexemes libs ks).atKeyword .else_ = true := by
  intro h
  cases ks with
  | nil => simp [atKeyword, cur, peek, ofLexemes] at h
  | cons l ks =>
    obtain rfl : l = .keyword .else_ := by simpa [atKeyword, cur, peek, ofLexemes] using h
    exact hks ks rfl

/-- What a statement starts with. -/
def StartsStmt : Lexeme → Prop
  | .keyword k => k ≠ .else_ ∧ k ≠ .def_ ∧ k ≠ .class_ ∧ k ≠ .include_
  | .symbol x => x ≠ .rbrace
  | _ => True

theorem Starts.startsStmt {l : Lexeme} (h : Starts l) : StartsStmt l := by
  cases l with
  | keyword k => obtain rfl | rfl := h <;> simp [StartsStmt]
  | symbol x => obtain rfl | rfl | rfl := h <;> simp [StartsStmt]
  | _ => trivial

variable (spell) in
theorem stmtLexemes_starts {n : Node} (hn : n.IsStmt) (hl : n.Legible libs) (ks : List Lexeme) :
    ∃ l ls, n.stmtLexemes spell ks = l :: ls ∧ StartsStmt l := by
  have hsimple (h : n.IsSimple) :
      ∃ l ls, n.simpleLexemes spell (.symbol .semicolon :: ks) = l :: ls ∧ StartsStmt l := by
    obtain ⟨l, ls, hls, hstart⟩ :=
      simpleLexemes_starts spell h hl (.symbol .semicolon :: ks)
    exact ⟨l, ls, hls, hstart.startsStmt⟩
  cases n with
  | ret m x => cases x <;> exact ⟨_, _, rfl, by simp [StartsStmt]⟩
  | branch m merge test yes no => cases no <;> exact ⟨_, _, rfl, by simp [StartsStmt]⟩
  | whileLoop | forLoop | print => exact ⟨_, _, rfl, by simp [StartsStmt]⟩
  | _ => exact hsimple hn

variable (spell) in
theorem noElse_stmtsLexemes {ns : List Node} (hns : AllStmt ns) (hl : AllLegible libs ns)
    (ks : List Lexeme) : NoElse (stmtsLexemes spell ns ks) := by
  cases ns with
  | nil => exact nofun
  | cons n rest =>
    obtain ⟨l, ls, hls, hstart⟩ := stmtLexemes_starts spell hns.1 hl.1
      (stmtsLexemes spell rest ks)
    rw [stmtsLexemes, hls]
    rintro rest ⟨⟩
    exact hstart.1 rfl

variable (spell)

theorem block_reads {ns : List Node} {ks : List Lexeme}
    (h : (statements (ofLexemes libs (stmtsLexemes spell ns ks))).Reads (unplacedAll ns)
      (ofLexemes libs ks)) :
    (block (ofLexemes libs (.symbol .lbrace :: stmtsLexemes spell ns ks))).Reads (unplacedAll ns)
      (ofLexemes libs ks) := by
  rw [block]
  exact (symbol_reads .lbrace).andThen fun _ => h

mutual

/-- A statement is read up to a lexeme that does not continue it. -/
theorem statement_reads (n : Node) (hn : n.IsStmt) (hl : n.Legible libs) (ks : List Lexeme)
    (hks : NoElse ks) :
    (statement (ofLexemes libs (n.stmtLexemes spell ks))).Reads (unplaced n)
      (ofLexemes libs ks) := by
  have hsimple (h : n.IsSimple) := simpleStatement_reads spell h hl ks
  cases n with
  | ret m x =>
    cases x with
    | none =>
      have hread : (returned (ofLexemes libs (.symbol .semicolon :: ks))).Reads none
          (ofLexemes libs ks) := by
        rw [returned, if_pos (atSymbol_of_rest rfl)]
        exact (symbol_reads .semicolon).map _
      rw [statement]
      exact (hread.map _).lift (Nat.le_succ _)
    | some x =>
      rw [statement]
      exact ((returned_reads hn hl ks).map _).lift (Nat.le_succ _)
  | branch m merge test yes no =>
    cases no with
    | none =>
      have hyes := block_reads spell (statements_reads yes hn.2 hl.2 ks)
      have helse : ¬ (ofLexemes libs ks).atKeyword .else_ = true := not_atKeyword_of_noElse hks
      rw [statement]
      refine Reads.lift (t := ofLexemes libs ks) ?_ (Nat.le_succ _)
      rw [branch_eq]
      refine (condition_reads spell hn.1 hl.1 _).andThen fun _ => hyes.bind fun h => ?_
      rw [if_neg helse]
      exact ⟨h, rfl⟩
    | some no =>
      obtain ⟨htest, hyes, hno⟩ := hn
      obtain ⟨hl, hl', hl''⟩ := hl
      have hyes := block_reads spell (statements_reads yes hyes hl' (.keyword .else_ ::
        .symbol .lbrace :: stmtsLexemes spell no ks))
      have hno := block_reads spell (statements_reads no hno hl'' ks)
      rw [statement]
      refine Reads.lift (t := ofLexemes libs ks) ?_ (Nat.le_succ _)
      rw [branch_eq]
      refine (condition_reads spell htest hl _).andThen fun _ => hyes.bind fun h => ?_
      exact (hno.map _).lift (Nat.le_of_lt (Nat.lt_of_succ_lt h))
  | whileLoop m merge test body =>
    have hbody := block_reads spell (statements_reads body hn.2 hl.2 ks)
    rw [statement]
    exact ((condition_reads spell hn.1 hl.1 _).andThen fun _ => hbody.map _).lift (Nat.le_succ _)
  | forLoop m merge init test step body =>
    obtain ⟨hinit, htest, hstep, hbody⟩ := hn
    obtain ⟨hl, hl', hl'', hlbody⟩ := hl
    have hbody := block_reads spell (statements_reads body hbody hlbody ks)
    rw [statement]
    exact ((forHead_reads hinit htest hstep hl hl' hl'' _).andThen fun _ => hbody.map _).lift
      (Nat.le_succ _)
  | print m x =>
    rw [statement]
    exact ((printed_reads hn hl ks).map _).lift (Nat.le_succ _)
  | _ => exact hsimple hn
termination_by structural n

/-- Statements are read up to the brace that closes them. -/
theorem statements_reads (ns : List Node) (hns : AllStmt ns) (hl : AllLegible libs ns)
    (ks : List Lexeme) :
    (statements (ofLexemes libs (stmtsLexemes spell ns ks))).Reads (unplacedAll ns)
      (ofLexemes libs ks) := by
  cases ns with
  | nil =>
    rw [stmtsLexemes, ofLexemes_cons, statements_cons]
    exact ⟨_, if_pos rfl⟩
  | cons n rest =>
    have hread := statement_reads n hns.1 hl.1 _ (noElse_stmtsLexemes spell hns.2 hl.2 ks)
    have hrest := statements_reads rest hns.2 hl.2 ks
    obtain ⟨l, ls, hls, hstart⟩ := stmtLexemes_starts spell hns.1 hl.1 (stmtsLexemes spell rest ks)
    have hbrace : l ≠ .symbol .rbrace := by
      rintro rfl
      exact hstart rfl
    rw [stmtsLexemes]
    rw [hls] at hread ⊢
    rw [ofLexemes_cons, statements_cons, if_neg hbrace]
    exact hread.andThen fun _ => hrest.map _
termination_by structural ns

end

variable {spell}

/-! ### Items -/

theorem parameters_reads (first : Bool) {ps : List Param} (hps : ∀ p ∈ ps, p.type.IsWritten)
    (hl : ∀ p ∈ ps, p.name.IsName ∧ p.type.Legible libs) (ks : List Lexeme) :
    (parameters (ofLexemes libs (parameterLexemes first ps ks)) first).Reads
      (ps.map (Param.move fun _ => .none)) (ofLexemes libs ks) := by
  induction ps generalizing first with
  | nil =>
    rw [parameters, parameterLexemes, if_pos (atSymbol_of_rest rfl)]
    exact (symbol_reads .rparen).map _
  | cons p ps ih =>
    obtain ⟨hp, hps⟩ := List.forall_mem_cons.mp hps
    obtain ⟨⟨_, hp'⟩, hl⟩ := List.forall_mem_cons.mp hl
    have hrest := ih false hps hl
    have hat : ¬ (ofLexemes libs (parameterLexemes first (p :: ps) ks)).atSymbol .rparen = true := by
      cases first <;> exact not_atSymbol fun _ _ h => by cases h
    rw [parameters, if_neg hat]
    cases first with
    | true =>
      rw [if_pos rfl]
      refine (ident_reads p.name).andThen fun _ => (symbol_reads .colon).andThen fun _ => ?_
      exact (typeName_reads hp hp' false _).andThen fun _ => hrest.map _
    | false =>
      rw [if_neg Bool.false_ne_true]
      refine (symbol_reads .comma).andThen fun _ => ?_
      refine (ident_reads p.name).andThen fun _ => (symbol_reads .colon).andThen fun _ => ?_
      exact (typeName_reads hp hp' false _).andThen fun _ => hrest.map _

theorem fields_reads {ps : List Param} (hps : ∀ p ∈ ps, p.type.IsWritten)
    (hl : ∀ p ∈ ps, p.name.IsName ∧ p.type.Legible libs) (ks : List Lexeme) :
    (fields (ofLexemes libs (fieldLexemes ps ks))).Reads (ps.map (Param.move fun _ => .none))
      (ofLexemes libs ks) := by
  induction ps with
  | nil =>
    rw [fields, fieldLexemes, if_pos (atSymbol_of_rest rfl)]
    exact (symbol_reads .rbrace).map _
  | cons p ps ih =>
    obtain ⟨hp, hps⟩ := List.forall_mem_cons.mp hps
    obtain ⟨⟨_, hp'⟩, hl⟩ := List.forall_mem_cons.mp hl
    have hat : ¬ (ofLexemes libs (fieldLexemes (p :: ps) ks)).atSymbol .rbrace = true :=
      not_atSymbol fun _ _ h => by cases h
    rw [fields, if_neg hat]
    refine (ident_reads p.name).andThen fun _ => (symbol_reads .colon).andThen fun _ => ?_
    refine (typeName_reads hp hp' false _).andThen fun _ => ?_
    exact (symbol_reads .semicolon).andThen fun _ => (ih hps hl).map _

theorem resultType_reads {t : Ty} (ht : t.IsWritten ∨ t = .void) (hl : t.Legible libs) {n : Nat}
    {ks : List Lexeme} (h : (ofLexemes libs (.symbol .arrow :: t.lexemes ks)).size < n) :
    (resultType n (ofLexemes libs (.symbol .arrow :: t.lexemes ks)) h).Reads t
      (ofLexemes libs ks) := by
  have hread : (typeName (ofLexemes libs (t.lexemes ks)) true).Reads t (ofLexemes libs ks) := by
    obtain ht | rfl := ht
    · exact typeName_reads ht hl true ks
    · change (typeName (ofLexemes libs (.keyword .void_ :: ks)) true).Reads _ _
      rw [ofLexemes_cons, typeName_cons, typeAfter_void, if_pos rfl]
      exact ⟨_, rfl⟩
  rw [resultType, if_pos (atSymbol_of_rest rfl)]
  exact ((symbol_reads .arrow).andThen fun _ => hread).lift _

theorem function_reads {name : Text} {params : List Param} {result : Ty} {body : List Node}
    (hparams : ∀ p ∈ params, p.type.IsWritten) (hresult : result.IsWritten ∨ result = .void)
    (hbody : AllStmt body) (hl : ∀ p ∈ params, p.name.IsName ∧ p.type.Legible libs)
    (hl' : result.Legible libs) (hl'' : AllLegible libs body) (ks : List Lexeme) :
    (function (ofLexemes libs (.keyword .def_ :: .ident name :: .symbol .lparen ::
      parameterLexemes true params (.symbol .arrow :: result.lexemes (.symbol .lbrace ::
        stmtsLexemes spell body ks))))).Reads
      (.funcDef (.at_ .none) name (params.map (Param.move fun _ => .none)) result
        (unplacedAll body)) (ofLexemes libs ks) := by
  have hbody := block_reads spell (statements_reads spell body hbody hl'' ks)
  refine (keyword_reads .def_).andThen fun _ => (ident_reads name).andThen fun _ => ?_
  refine (symbol_reads .lparen).andThen fun _ => ?_
  refine Reads.andThen (a := (_, result)) ?_ fun _ => hbody.map _
  exact (parameters_reads true hparams hl _).bind fun h => (resultType_reads hresult hl' h).map _

theorem classDeclaration_reads {name : Text} {ps : List Param}
    (hps : ∀ p ∈ ps, p.type.IsWritten) (hl : ∀ p ∈ ps, p.name.IsName ∧ p.type.Legible libs)
    (ks : List Lexeme) :
    (classDeclaration (ofLexemes libs (.keyword .class_ :: .ident name :: .symbol .lbrace ::
      fieldLexemes ps ks))).Reads
      (.classDecl (.at_ .none) name (ps.map (Param.move fun _ => .none))) (ofLexemes libs ks) := by
  refine (keyword_reads .class_).andThen fun _ => (ident_reads name).andThen fun _ => ?_
  exact (symbol_reads .lbrace).andThen fun _ => (fields_reads hps hl ks).map _

theorem inclusion_reads (l : Library) (ks : List Lexeme) :
    (inclusion (ofLexemes libs (.keyword .include_ :: .keyword (libraryKeyword l.name) ::
      .symbol .semicolon :: ks))).Reads (.includeLib (.at_ .none) l.name)
      (ofLexemes (l :: libs) ks) := by
  have hname : (libraryName (ofLexemes libs (.keyword (libraryKeyword l.name) ::
      .symbol .semicolon :: ks))).Reads l (ofLexemes libs (.symbol .semicolon :: ks)) := by
    cases l <;> exact ⟨Nat.lt_succ_self _, rfl⟩
  refine (keyword_reads .include_).andThen fun _ => hname.andThen fun _ => ?_
  exact (symbol_reads .semicolon).bind fun h => ⟨h, rfl⟩

theorem item_of_startsStmt {l : Lexeme} (h : StartsStmt l) (ls : List Lexeme) :
    item (ofLexemes libs (l :: ls)) = statement (ofLexemes libs (l :: ls)) := by
  cases l with
  | keyword k =>
    obtain ⟨_, hdef, hclass, hinclude⟩ := h
    cases k <;> first | rfl | contradiction
  | _ => rfl

theorem item_reads {n : Node} (hn : n.IsItem) (hl : n.Legible libs) {ks : List Lexeme}
    (hks : NoElse ks) :
    (item (ofLexemes libs (n.itemLexemes spell ks))).Reads (unplaced n)
      (ofLexemes (n.includes libs) ks) := by
  have hstmt (h : n.IsStmt) : (item (ofLexemes libs (n.stmtLexemes spell ks))).Reads (unplaced n)
      (ofLexemes libs ks) := by
    have hread := statement_reads spell n h hl ks hks
    obtain ⟨l, ls, hls, hstart⟩ := stmtLexemes_starts spell h hl ks
    rw [hls] at hread ⊢
    rwa [item_of_startsStmt hstart]
  cases n with
  | includeLib m library =>
    obtain ⟨l, rfl⟩ := hl
    rw [Grammar.includes_name]
    exact inclusion_reads l ks
  | classDecl m name fs => exact classDeclaration_reads hn.2 hl.2 ks
  | funcDef m name params result body =>
    exact function_reads hn.1 hn.2.1 hn.2.2 hl.2.1 hl.2.2.1 hl.2.2.2 ks
  | _ => exact hstmt hn

variable (spell) in
theorem noElse_itemsLexemes {libs : List Library} {ns : List Node} (hns : ItemsLegible libs ns) :
    NoElse (itemsLexemes spell ns) := by
  cases ns with
  | nil => exact nofun
  | cons n rest =>
    obtain ⟨hn, hl, _⟩ := hns
    have hstmt (h : n.IsStmt) : NoElse (n.stmtLexemes spell (itemsLexemes spell rest)) := by
      obtain ⟨l, ls, hls, hstart⟩ := stmtLexemes_starts spell h hl (itemsLexemes spell rest)
      rw [hls]
      rintro _ ⟨⟩
      exact hstart.1 rfl
    cases n with
    | includeLib | classDecl | funcDef => exact nofun
    | _ => exact hstmt hn

variable (spell) in
/-- Items are read to the end. -/
theorem items_reads {libs : List Library} {ns : List Node} (hns : ItemsLegible libs ns) :
    (items (ofLexemes libs (itemsLexemes spell ns))).1 = .ok (unplacedAll ns) := by
  induction ns generalizing libs with
  | nil =>
    rw [items]
    rfl
  | cons n rest ih =>
    obtain ⟨hn, hl, hrest⟩ := hns
    obtain ⟨hlt, hread⟩ := item_reads hn hl (noElse_itemsLexemes spell hrest)
    have hne : ¬ (ofLexemes libs (itemsLexemes spell (n :: rest))).rest.isEmpty = true := by
      rw [List.isEmpty_iff_length_eq_zero]
      exact Nat.ne_zero_of_lt hlt
    rw [items, if_neg hne, itemsLexemes, hread]
    exact congrArg (Except.map (unplaced n :: ·)) (ih hrest)

end Parse

namespace Program

/-- A program that was read has no annotations yet. -/
theorem bare_parse {key : Nat} {source : Text} {p : Program}
    (h : Program.parse key source = .ok p) : p.node.bare = p.node := by
  rcases ht : Lexer.tokenize source with e | ⟨ts, stop⟩
  · rw [Program.parse, Feed.ofSource, ht] at h
    cases h
  · have hfeed : Feed.move id ⟨ts, stop, []⟩ = ⟨ts, stop, []⟩ := by
      simp only [Feed.move, Feed.mk.injEq, and_true, id_eq]
      exact List.map_id ts
    have hitems := Parse.items_move id ⟨ts, stop, []⟩
    rw [hfeed] at hitems
    rw [parse_of_tokens ht] at h
    rcases hbody : (Parse.items ⟨ts, stop, []⟩).1 with e | body
    · rw [hbody] at h
      cases h
    · rw [hbody] at h hitems
      cases h
      have hstrip : body = Node.stripAll id body := Except.ok.inj hitems
      rw [Node.stripAll_id] at hstrip
      simp only [node, Node.bare, ← hstrip]
      rfl

/-- Floats have spellings. -/
theorem exists_spelling : ∃ spell, Spelling spell := by
  have hchoice (v : Double) : ∃ t : Text, IsFloatLiteral v → t.IsFraction ∧ Double.ofText t = .ok v := by
    by_cases h : IsFloatLiteral v
    · obtain ⟨t, ht⟩ := h
      exact ⟨t, fun _ => ht⟩
    · exact ⟨[], fun hv => (h hv).elim⟩
  exact Classical.skolem.mp hchoice

/-- A program that was read and is written down is read as itself, up to positions. -/
theorem parse_render {spell : Double → Text} (hspell : Spelling spell) {key : Nat}
    {source : Text} {p : Program} (h : Program.parse key source = .ok p) :
    ∃ q, Program.parse key (p.render spell) = .ok q ∧ q.node.bare = q.node ∧
      p.node.bare = p.node ∧ q.node.strip (fun _ => .none) = p.node.strip fun _ => .none := by
  have hlegible := parse_legible h
  obtain ⟨ts, stop, htokens, hlexemes⟩ := tokenize_render hspell hlegible
  have hfeed : Feed.move (fun _ => .none) ⟨ts, stop, []⟩ =
      Feed.ofLexemes [] (Node.itemsLexemes spell p.body) := by
    rw [← hlexemes]
    simp [Feed.move, Feed.ofLexemes, Token.move]
  have hitems := Parse.items_move (fun _ => .none) ⟨ts, stop, []⟩
  rw [hfeed, Parse.items_reads spell hlegible] at hitems
  rcases hbody : (Parse.items ⟨ts, stop, []⟩).1 with e | body
  · rw [hbody] at hitems
    cases hitems
  · rw [hbody] at hitems
    have hq := parse_of_tokens htokens key
    rw [hbody] at hq
    refine ⟨_, hq, bare_parse hq, bare_parse h, ?_⟩
    have hstrip := Except.ok.inj hitems
    simp only [node, Node.strip, ← hstrip]
    rfl

/-- A program with a function, a float, a second condition and escapes. -/
def excerpt : Text :=
  "def f(a:int,b:float)->bool\x7breturn a<1||b>2.50;\x7d p:P;p.n=-2;" ++
  "if(f(p.n,0.5))\x7bprint(\"a\\n\\\"\");\x7delse if(true)\x7bprint('\\'');\x7d"

theorem excerpt_parse_render : ∃ spell p q, Spelling spell ∧ Program.parse 0 excerpt = .ok p ∧
    Program.parse 0 (p.render spell) = .ok q ∧
    q.node.strip (fun _ => .none) = p.node.strip fun _ => .none := by
  have hok : (Program.parse 0 excerpt).isOk = true := by decide +kernel
  obtain ⟨spell, hspell⟩ := exists_spelling
  rcases hp : Program.parse 0 excerpt with e | p
  · rw [hp] at hok
    cases hok
  · obtain ⟨q, hq, _, _, hstrip⟩ := parse_render hspell hp
    exact ⟨spell, p, q, hspell, rfl, hq, hstrip⟩

end Program

end Augite

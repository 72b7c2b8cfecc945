import Augite.Proofs.Legible
import Augite.Parse.Program

/-!
# The grammar of the language

What can be written, as relations between the tokens before a phrase, its tree and the tokens
behind it. Operators are not ranked here: an expression may be split at any of its operators.
A conditional has no second arm exactly where no `else` stands behind its first one, and a
declaration is of a list or of a graph exactly if its type is.

Every part of the grammar has trees of its own shape only. The names and literals of a tree are
those of its tokens, and list and graph types stand where their library is included.
-/

namespace Augite

namespace Grammar

open Parse (literal? binaryOp? unaryOp? access scalarType? library? containerOf)

section

set_option autoImplicit true

/-! ### Expressions and types -/

mutual

inductive Expression : List Token → Node → List Token → Prop
  | literal : literal? p l = some n → Expression (⟨l, p⟩ :: s) n s
  | var : Expression (⟨.ident name, p⟩ :: s) (.var (.at_ p) name) s
  | group :
    Expression s n (⟨.symbol .rparen, q⟩ :: t) → Expression (⟨.symbol .lparen, p⟩ :: s) n t
  | unary :
    unaryOp? l = some op → Expression s x t → Expression (⟨l, p⟩ :: s) (.unary (.at_ p) op x) t
  | binary :
    binaryOp? l = some (op, level) → Expression s x (⟨l, p⟩ :: t) → Expression t y u →
      Expression s (.binary (.at_ p) op x y) u
  | call :
    Operands .rparen true s xs t →
      Expression (⟨.ident name, p⟩ :: ⟨.symbol .lparen, q⟩ :: s) (.call (.at_ p) name xs) t
  | member :
    Expression (⟨.ident name, p⟩ :: ⟨.symbol .dot, q⟩ :: ⟨.ident member, r⟩ :: s)
      (.dot (access p name member false) []) s
  | memberCall :
    Operands .rparen true s xs t →
      Expression (⟨.ident name, p⟩ :: ⟨.symbol .dot, q⟩ :: ⟨.ident member, r⟩ ::
        ⟨.symbol .lparen, o⟩ :: s) (.dot (access p name member true) xs) t

/-- Expressions with commas between them and the closing symbol. -/
inductive Operands : Symbol → Bool → List Token → List Node → List Token → Prop
  | close : Operands closing first (⟨.symbol closing, p⟩ :: s) [] s
  | first :
    Expression s x t → Operands closing false t xs u → Operands closing true s (x :: xs) u
  | next :
    Expression s x t → Operands closing false t xs u →
      Operands closing false (⟨.symbol .comma, p⟩ :: s) (x :: xs) u

end

/-- A type, or `void` where that is allowed. -/
inductive TypeName : Bool → List Token → Ty → List Token → Prop
  | scalar :
    scalarType? l = some ty → TypeName allowVoid (⟨l, p⟩ :: s) ty s
  | container :
    library? l = some library → TypeName false s elem (⟨.symbol .gt, r⟩ :: t) →
      elem.kind.isScalar = true →
        TypeName allowVoid (⟨l, p⟩ :: ⟨.symbol .lt, q⟩ :: s) (containerOf library elem.kind) t
  | class_ : TypeName allowVoid (⟨.ident name, p⟩ :: s) (.classOf name) s
  | void : TypeName true (⟨.keyword .void_, p⟩ :: s) .void s

/-! ### Statements -/

/-- The token `l` does not stand in front. -/
def NotAt (l : Lexeme) (s : List Token) : Prop := ∀ p rest, s ≠ ⟨l, p⟩ :: rest

/-- Declarations, assignments and expressions. -/
inductive Simple : List Token → Node → List Token → Prop
  | declare :
    TypeName false s ty t → ty.kind.isScalar = true ∨ ty.kind = .class_ →
      NotAt (.symbol .assign) t →
      Simple (⟨.ident name, p⟩ :: ⟨.symbol .colon, q⟩ :: s) (.varDecl (.at_ p) name ty) t
  | define :
    TypeName false s ty (⟨.symbol .assign, r⟩ :: t) → ty.kind.isScalar = true →
      Expression t x u →
      Simple (⟨.ident name, p⟩ :: ⟨.symbol .colon, q⟩ :: s) (.varDef (.at_ p) name ty x) u
  | emptyList :
    TypeName false s (.listOf k) t → NotAt (.symbol .assign) t →
      Simple (⟨.ident name, p⟩ :: ⟨.symbol .colon, q⟩ :: s) (.listDecl (.at_ p) name k []) t
  | list :
    TypeName false s (.listOf k) (⟨.symbol .assign, r⟩ :: ⟨.symbol .lbracket, o⟩ :: t) →
      Operands .rbracket true t xs u →
        Simple (⟨.ident name, p⟩ :: ⟨.symbol .colon, q⟩ :: s) (.listDecl (.at_ p) name k xs) u
  | graph :
    TypeName false s (.graphOf k) t → NotAt (.symbol .assign) t →
      Simple (⟨.ident name, p⟩ :: ⟨.symbol .colon, q⟩ :: s) (.graphDecl (.at_ p) name k) t
  | assign :
    Expression s x t →
      Simple (⟨.ident name, p⟩ :: ⟨.symbol .assign, q⟩ :: s) (.assign (.at_ p) name x) t
  | assignField :
    Expression s x t →
      Simple (⟨.ident name, p⟩ :: ⟨.symbol .dot, q⟩ :: ⟨.ident member, r⟩ ::
        ⟨.symbol .assign, o⟩ :: s) (.fieldAssign (.at_ p) (access p name member false) [] x) t
  | expression :
    Expression (⟨l, p⟩ :: s) x t → Simple (⟨l, p⟩ :: s) (.exprStmt (.at_ p) x) t

/-- A condition in parentheses. -/
inductive Condition : List Token → Node → List Token → Prop
  | mk :
    Expression s x (⟨.symbol .rparen, q⟩ :: t) → Condition (⟨.symbol .lparen, p⟩ :: s) x t

mutual

inductive Statement : List Token → Node → List Token → Prop
  | simple : Simple s n (⟨.symbol .semicolon, p⟩ :: t) → Statement s n t
  | return_ :
    Statement (⟨.keyword .return_, p⟩ :: ⟨.symbol .semicolon, q⟩ :: s) (.ret (.at_ p) none) s
  | returnValue :
    Expression s x (⟨.symbol .semicolon, q⟩ :: t) →
      Statement (⟨.keyword .return_, p⟩ :: s) (.ret (.at_ p) (some x)) t
  | print :
    Condition s x (⟨.symbol .semicolon, q⟩ :: t) →
      Statement (⟨.keyword .print_, p⟩ :: s) (.print (.at_ p) x) t
  | while_ :
    Condition s test t → Block t body u →
      Statement (⟨.keyword .while_, p⟩ :: s) (.whileLoop (.at_ p) none test body) u
  | for_ :
    Simple s init (⟨.symbol .semicolon, r⟩ :: t) →
      Expression t test (⟨.symbol .semicolon, o⟩ :: u) →
      Simple u step (⟨.symbol .rparen, o'⟩ :: v) → Block v body w →
        Statement (⟨.keyword .for_, p⟩ :: ⟨.symbol .lparen, q⟩ :: s)
          (.forLoop (.at_ p) none init test step body) w
  | if_ :
    Condition s test t → Block t yes u → NotAt (.keyword .else_) u →
      Statement (⟨.keyword .if_, p⟩ :: s) (.branch (.at_ p) none test yes none) u
  | ifElse :
    Condition s test t → Block t yes (⟨.keyword .else_, q⟩ :: u) → Block u no v →
      Statement (⟨.keyword .if_, p⟩ :: s) (.branch (.at_ p) none test yes (some no)) v
  | ifElseIf :
    Condition s test t → Block t yes (⟨.keyword .else_, q⟩ :: ⟨.keyword .if_, r⟩ :: u) →
      Statement (⟨.keyword .if_, r⟩ :: u) other v →
        Statement (⟨.keyword .if_, p⟩ :: s) (.branch (.at_ p) none test yes (some [other])) v

/-- Statements in braces. -/
inductive Block : List Token → List Node → List Token → Prop
  | mk : Statements s ns t → Block (⟨.symbol .lbrace, p⟩ :: s) ns t

/-- Statements with the closing brace. -/
inductive Statements : List Token → List Node → List Token → Prop
  | close : Statements (⟨.symbol .rbrace, p⟩ :: s) [] s
  | cons :
    Statement s n t → Statements t ns u → Statements s (n :: ns) u

end

/-! ### Programs -/

/-- A name and its type. -/
inductive Binding : List Token → Param → List Token → Prop
  | mk :
    TypeName false s type t →
      Binding (⟨.ident name, p⟩ :: ⟨.symbol .colon, q⟩ :: s) { pos := p, name, type } t

/-- Parameters with commas between them and the closing parenthesis. -/
inductive Parameters : Bool → List Token → List Param → List Token → Prop
  | close : Parameters first (⟨.symbol .rparen, p⟩ :: s) [] s
  | first :
    Binding s b t → Parameters false t bs u → Parameters true s (b :: bs) u
  | next :
    Binding s b t → Parameters false t bs u →
      Parameters false (⟨.symbol .comma, p⟩ :: s) (b :: bs) u

/-- Fields, each with a semicolon, and the closing brace. -/
inductive Fields : List Token → List Param → List Token → Prop
  | close : Fields (⟨.symbol .rbrace, p⟩ :: s) [] s
  | cons :
    Binding s b (⟨.symbol .semicolon, p⟩ :: t) → Fields t bs u → Fields s (b :: bs) u

/-- An arrow and a type, or nothing for `void`. -/
inductive Result : List Token → Ty → List Token → Prop
  | arrow : TypeName true s type t → Result (⟨.symbol .arrow, p⟩ :: s) type t
  | none : NotAt (.symbol .arrow) s → Result s .void s

inductive Item : List Token → Node → List Token → Prop
  | include_ :
    library? l = some library →
      Item (⟨.keyword .include_, p⟩ :: ⟨l, q⟩ :: ⟨.symbol .semicolon, r⟩ :: s)
        (.includeLib (.at_ p) library.name) s
  | function :
    Parameters true s params t → Result t result u → Block u body v →
      Item (⟨.keyword .def_, p⟩ :: ⟨.ident name, q⟩ :: ⟨.symbol .lparen, r⟩ :: s)
        (.funcDef (.at_ p) name params result body) v
  | class_ :
    Fields s fields t →
      Item (⟨.keyword .class_, p⟩ :: ⟨.ident name, q⟩ :: ⟨.symbol .lbrace, r⟩ :: s)
        (.classDecl (.at_ p) name fields) t
  | statement : Statement s n t → Item s n t

/-- The items of a program, up to the end of its tokens. -/
inductive Items : List Token → List Node → Prop
  | nil : Items [] []
  | cons : Item s n t → Items t ns → Items s (n :: ns)

end

/-! ### Trees of phrases -/

/-- A token as sources have it, which names no library but those included. -/
structure Fit (libs : List Library) (tok : Token) : Prop where
  read : tok.lexeme.IsRead
  included : ∀ l, library? tok.lexeme = some l → l ∈ libs

/-- If the tokens from the first list on, up to the second one, are fit, then `P` holds. -/
def Assures (libs : List Library) (s t : List Token) (P : Prop) : Prop :=
  ∃ taken, s = taken ++ t ∧ ((∀ tok ∈ taken, Fit libs tok) → P)

namespace Assures

variable {libs : List Library} {s t u : List Token} {P Q : Prop}

theorem nil (h : P) : Assures libs s s P := ⟨[], rfl, fun _ => h⟩

theorem token (tok : Token) (s : List Token) : Assures libs (tok :: s) s (Fit libs tok) :=
  ⟨[tok], rfl, fun h => h tok List.mem_cons_self⟩

theorem append (h : Assures libs s t P) (k : Assures libs t u Q) : Assures libs s u (P ∧ Q) := by
  obtain ⟨taken, rfl, hP⟩ := h
  obtain ⟨taken', rfl, hQ⟩ := k
  refine ⟨taken ++ taken', (List.append_assoc ..).symm, fun hfit => ?_⟩
  obtain ⟨hfit, hfit'⟩ := List.forall_mem_append.mp hfit
  exact ⟨hP hfit, hQ hfit'⟩

theorem imp (h : Assures libs s t P) (hPQ : P → Q) : Assures libs s t Q := by
  obtain ⟨taken, rfl, hP⟩ := h
  exact ⟨taken, rfl, hPQ ∘ hP⟩

/-- A token that stands for itself. -/
theorem skip {tok : Token} (h : Assures libs s t P) : Assures libs (tok :: s) t P :=
  (append (token tok s) h).imp And.right

/-- A phrase before a token that stands for itself. -/
theorem close {tok : Token} (h : Assures libs s (tok :: t) P) : Assures libs s t P :=
  (append h (token tok t)).imp And.left

end Assures

open Node (IsExpr AllExpr IsSimple IsStmt AllStmt IsItem Legible AllLegible)

variable (libs : List Library)

/-- An expression that can be written. -/
abbrev GoodExpr (n : Node) : Prop := n.IsExpr ∧ n.Legible libs

abbrev GoodExprs (ns : List Node) : Prop := AllExpr ns ∧ AllLegible libs ns

/-- A type that can be written. -/
abbrev GoodType (t : Ty) : Prop := t.IsWritten ∧ t.Legible libs

/-- A simple statement that can be written. -/
abbrev GoodSimple (n : Node) : Prop := n.IsSimple ∧ n.Legible libs

/-- A statement that can be written. -/
abbrev GoodStmt (n : Node) : Prop := n.IsStmt ∧ n.Legible libs

abbrev GoodStmts (ns : List Node) : Prop := AllStmt ns ∧ AllLegible libs ns

/-- A parameter or a field that can be written. -/
abbrev GoodParam (p : Param) : Prop := p.type.IsWritten ∧ p.name.IsName ∧ p.type.Legible libs

variable {libs}

theorem literal_good {pos : Position} {l : Lexeme} {n : Node} (h : literal? pos l = some n) (hl : l.IsRead) :
    GoodExpr libs n := by
  cases l with
  | keyword k => cases k <;> cases h <;> exact ⟨trivial, trivial⟩
  | int v | float v =>
    cases h
    exact ⟨trivial, hl⟩
  | char v | string v =>
    cases h
    exact ⟨trivial, trivial⟩
  | endOfInput | ident _ | symbol _ => cases h

theorem binaryOp?_isWritten {l : Lexeme} {op : BinaryOp} {level : Nat}
    (h : binaryOp? l = some (op, level)) : op.IsWritten := by
  cases l with
  | symbol x => cases x <;> cases h <;> decide
  | _ => cases h

theorem unaryOp?_isWritten {l : Lexeme} {op : UnaryOp} (h : unaryOp? l = some op) :
    op.IsWritten := by
  cases l with
  | symbol x => cases x <;> cases h <;> decide
  | _ => cases h

mutual

theorem Expression.good {s t : List Token} {n : Node} :
    Expression s n t → Assures libs s t (GoodExpr libs n)
  | .literal hl => (Assures.token ..).imp fun hfit => literal_good hl hfit.read
  | .var => (Assures.token ..).imp fun hfit => ⟨trivial, hfit.read⟩
  | .group h => (Expression.good h).close.skip
  | .unary hop h =>
    (Expression.good h).skip.imp fun hx => ⟨hx.1, unaryOp?_isWritten hop, hx.2⟩
  | .binary hop hx hy =>
    ((Expression.good hx).close.append (Expression.good hy)).imp fun ⟨hx, hy⟩ =>
      ⟨⟨hx.1, hy.1⟩, binaryOp?_isWritten hop, hx.2, hy.2⟩
  | .call h =>
    ((Assures.token ..).append (Operands.good h).skip).imp fun ⟨hfit, hxs⟩ =>
      ⟨hxs.1, hfit.read, hxs.2⟩
  | .member =>
    ((Assures.token ..).append (Assures.token ..).skip).imp fun ⟨hfit, hfit'⟩ =>
      ⟨⟨trivial, fun _ => rfl⟩, hfit.read, hfit'.read, trivial⟩
  | .memberCall h =>
    ((Assures.token ..).append ((Assures.token ..).append (Operands.good h).skip).skip).imp
      fun ⟨hfit, hfit', hxs⟩ => ⟨⟨hxs.1, fun hp => by cases hp⟩, hfit.read, hfit'.read, hxs.2⟩

theorem Operands.good {closing : Symbol} {first : Bool} {s t : List Token} {ns : List Node} :
    Operands closing first s ns t → Assures libs s t (GoodExprs libs ns)
  | .close => (Assures.nil ⟨trivial, trivial⟩).skip
  | .first hx hxs =>
    ((Expression.good hx).append (Operands.good hxs)).imp fun ⟨hx, hxs⟩ =>
      ⟨⟨hx.1, hxs.1⟩, hx.2, hxs.2⟩
  | .next hx hxs =>
    ((Expression.good hx).append (Operands.good hxs)).skip.imp fun ⟨hx, hxs⟩ =>
      ⟨⟨hx.1, hxs.1⟩, hx.2, hxs.2⟩

end

variable {s t : List Token} {n : Node}

theorem scalarType_good {l : Lexeme} {t : Ty} (h : scalarType? l = some t) : GoodType libs t := by
  cases l with
  | keyword k => cases k <;> cases h <;> exact ⟨.scalar rfl, trivial⟩
  | _ => cases h

theorem containerOf_good {l : Library} (hl : l ∈ libs) {k : Kind} (h : k.isScalar = true) :
    GoodType libs (containerOf l k) := by
  cases l with
  | list => exact ⟨.list h, hl⟩
  | graph => exact ⟨.graph h, hl⟩

theorem TypeName.good {allowVoid : Bool} {ty : Ty} (h : TypeName allowVoid s ty t) :
    Assures libs s t (GoodType libs ty ∨ allowVoid = true ∧ ty = .void) := by
  induction h with
  | scalar hl => exact (Assures.nil (.inl (scalarType_good hl))).skip
  | container hl _ hscalar ih =>
    refine ((Assures.token ..).append ih.close.skip).imp fun ⟨hfit, _⟩ => ?_
    exact .inl (containerOf_good (hfit.included _ hl) hscalar)
  | class_ => exact (Assures.token ..).imp fun hfit => .inl ⟨.class_ hfit.read.word, hfit.read⟩
  | void => exact (Assures.nil (.inr ⟨rfl, rfl⟩)).skip

theorem TypeName.goodType {ty : Ty} (h : TypeName false s ty t) :
    Assures libs s t (GoodType libs ty) :=
  h.good.imp fun h => h.resolve_right fun h => by cases h.1

theorem isScalar_elem {ty : Ty} (h : ty.IsWritten) (hk : ty.kind = .list ∨ ty.kind = .graph) :
    ty.elem.isScalar = true := by
  cases h with
  | list hs | graph hs => exact hs
  | scalar hs => rcases hk with rfl | rfl <;> cases hs
  | class_ => rcases hk with hk | hk <;> cases hk

theorem Simple.good (h : Simple s n t) : Assures libs s t (GoodSimple libs n) := by
  cases h with
  | declare hty hkind =>
    refine ((Assures.token ..).append hty.goodType.skip).imp fun ⟨hfit, hty⟩ => ?_
    exact ⟨⟨hty.1, hkind⟩, hfit.read, hty.2⟩
  | define hty hscalar hx =>
    refine ((Assures.token ..).append (hty.goodType.close.append hx.good).skip).imp
      fun ⟨hfit, hty, hx⟩ => ?_
    exact ⟨⟨hty.1, hscalar, hx.1⟩, hfit.read, hty.2, hx.2⟩
  | emptyList hty =>
    refine ((Assures.token ..).append hty.goodType.skip).imp fun ⟨hfit, hty⟩ => ?_
    exact ⟨⟨isScalar_elem hty.1 (.inl rfl), trivial⟩, hfit.read, hty.2, trivial⟩
  | list hty hxs =>
    refine ((Assures.token ..).append (hty.goodType.close.close.append hxs.good).skip).imp
      fun ⟨hfit, hty, hxs⟩ => ?_
    exact ⟨⟨isScalar_elem hty.1 (.inl rfl), hxs.1⟩, hfit.read, hty.2, hxs.2⟩
  | graph hty =>
    refine ((Assures.token ..).append hty.goodType.skip).imp fun ⟨hfit, hty⟩ => ?_
    exact ⟨isScalar_elem hty.1 (.inr rfl), hfit.read, hty.2⟩
  | assign hx =>
    refine ((Assures.token ..).append hx.good.skip).imp fun ⟨hfit, hx⟩ => ?_
    exact ⟨hx.1, hfit.read, hx.2⟩
  | assignField hx =>
    refine ((Assures.token ..).append ((Assures.token ..).append hx.good.skip).skip).imp
      fun ⟨hfit, hfit', hx⟩ => ?_
    exact ⟨⟨rfl, rfl, hx.1⟩, hfit.read, hfit'.read, hx.2⟩
  | expression hx => exact hx.good

theorem Condition.good (h : Condition s n t) : Assures libs s t (GoodExpr libs n) := by
  obtain ⟨hx⟩ := h
  exact hx.good.close.skip

mutual

theorem Statement.good {s t : List Token} {n : Node} :
    Statement s n t → Assures libs s t (GoodStmt libs n)
  | .simple h => h.good.close.imp fun hn => ⟨hn.1.isStmt, hn.2⟩
  | .return_ => (Assures.nil ⟨trivial, trivial⟩).skip.skip
  | .returnValue hx => hx.good.close.skip
  | .print hx => hx.good.close.skip
  | .while_ htest hbody =>
    (htest.good.append (Block.good hbody)).skip.imp fun ⟨htest, hbody⟩ =>
      ⟨⟨htest.1, hbody.1⟩, htest.2, hbody.2⟩
  | .for_ hinit htest hstep hbody =>
    (hinit.good.close.append (htest.good.close.append
      (hstep.good.close.append (Block.good hbody)))).skip.skip.imp
      fun ⟨hinit, htest, hstep, hbody⟩ =>
        ⟨⟨hinit.1, htest.1, hstep.1, hbody.1⟩, hinit.2, htest.2, hstep.2, hbody.2⟩
  | .if_ htest hyes _ =>
    (htest.good.append (Block.good hyes)).skip.imp fun ⟨htest, hyes⟩ =>
      ⟨⟨htest.1, hyes.1⟩, htest.2, hyes.2⟩
  | .ifElse htest hyes hno =>
    (htest.good.append ((Block.good hyes).close.append (Block.good hno))).skip.imp
      fun ⟨htest, hyes, hno⟩ => ⟨⟨htest.1, hyes.1, hno.1⟩, htest.2, hyes.2, hno.2⟩
  | .ifElseIf htest hyes hother =>
    (htest.good.append ((Block.good hyes).close.append (Statement.good hother))).skip.imp
      fun ⟨htest, hyes, hother⟩ =>
        ⟨⟨htest.1, hyes.1, hother.1, trivial⟩, htest.2, hyes.2, hother.2, trivial⟩

theorem Block.good {s t : List Token} {ns : List Node} :
    Block s ns t → Assures libs s t (GoodStmts libs ns)
  | .mk h => (Statements.good h).skip

theorem Statements.good {s t : List Token} {ns : List Node} :
    Statements s ns t → Assures libs s t (GoodStmts libs ns)
  | .close => (Assures.nil ⟨trivial, trivial⟩).skip
  | .cons hn hns =>
    ((Statement.good hn).append (Statements.good hns)).imp fun ⟨hn, hns⟩ =>
      ⟨⟨hn.1, hns.1⟩, hn.2, hns.2⟩

end

theorem Binding.good {b : Param} (h : Binding s b t) : Assures libs s t (GoodParam libs b) := by
  obtain ⟨hty⟩ := h
  refine ((Assures.token ..).append hty.goodType.skip).imp fun ⟨hfit, hty⟩ => ?_
  exact ⟨hty.1, hfit.read, hty.2⟩

theorem Parameters.good {first : Bool} {bs : List Param} (h : Parameters first s bs t) :
    Assures libs s t (∀ b ∈ bs, GoodParam libs b) := by
  induction h with
  | close => exact (Assures.nil (List.forall_mem_nil _)).skip
  | first hb _ ih => exact (hb.good.append ih).imp List.forall_mem_cons.mpr
  | next hb _ ih => exact (hb.good.append ih).skip.imp List.forall_mem_cons.mpr

theorem Fields.good {bs : List Param} (h : Fields s bs t) :
    Assures libs s t (∀ b ∈ bs, GoodParam libs b) := by
  induction h with
  | close => exact (Assures.nil (List.forall_mem_nil _)).skip
  | cons hb _ ih => exact (hb.good.close.append ih).imp List.forall_mem_cons.mpr

theorem Result.good {ty : Ty} (h : Result s ty t) :
    Assures libs s t ((ty.IsWritten ∨ ty = .void) ∧ ty.Legible libs) := by
  cases h with
  | arrow h =>
    refine h.good.skip.imp fun hty => ?_
    rcases hty with hty | ⟨-, rfl⟩
    · exact ⟨.inl hty.1, hty.2⟩
    · exact ⟨.inr rfl, trivial⟩
  | none => exact .nil ⟨.inr rfl, trivial⟩

/-- The library that an inclusion names is included behind it. -/
theorem includes_name (m : Mark) (l : Library) :
    (Node.includeLib m l.name).includes libs = l :: libs := by
  cases l <;> rfl

theorem GoodStmt.isItem (h : GoodStmt libs n) : n.IsItem ∧ n.includes libs = libs := by
  cases n <;> first | exact ⟨h.1, rfl⟩ | exact h.1.elim

/-- An item that is no inclusion can be written, and includes nothing. -/
theorem Item.good (h : Item s n t) (hno : NotAt (.keyword .include_) s) :
    Assures libs s t (n.IsItem ∧ n.Legible libs ∧ n.includes libs = libs) := by
  cases h with
  | include_ => exact absurd rfl (hno _ _)
  | function hparams hresult hbody =>
    refine ((Assures.token ..).append (hparams.good.append
      (hresult.good.append hbody.good)).skip).skip.imp ?_
    rintro ⟨hfit, hparams, hresult, hbody⟩
    exact ⟨⟨fun p hp => (hparams p hp).1, hresult.1, hbody.1⟩,
      ⟨hfit.read, fun p hp => (hparams p hp).2, hresult.2, hbody.2⟩, rfl⟩
  | class_ h =>
    refine ((Assures.token ..).append h.good.skip).skip.imp fun ⟨hfit, hfields⟩ => ?_
    exact ⟨⟨hfit.read.word, fun f hf => (hfields f hf).1⟩,
      ⟨hfit.read, fun f hf => (hfields f hf).2⟩, rfl⟩
  | statement h => exact h.good.imp fun hn => ⟨hn.isItem.1, hn.2, hn.isItem.2⟩

end Grammar

end Augite

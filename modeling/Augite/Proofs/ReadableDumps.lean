import Augite.Proofs.ParsedShape
import Augite.Proofs.SteadyData
import Augite.Tree.Dump

/-!
# Dumps that can be read

The dump of a tree from a source text stands on one line and is read as a datum that matches
itself, provided that strings can show what its literals hold.
-/

namespace Augite

/-- What passes from items to lists and arrays, and holds of symbols, of numerals and of strings
of printed characters. -/
structure Datum.Passes (P : Datum → Prop) : Prop where
  list {ds : List Datum} : (∀ d ∈ ds, P d) → P (.list ds)
  array {ds : List Datum} : (∀ d ∈ ds, P d) → P (.array ds)
  symbol {t : Text} : Lexer.IsSymbol t → P (.symbol t)
  number {t : Text} : t.IsNumeral 300 → P (.number t)
  string {t : Text} : (∀ b ∈ t, 0x20 ≤ b ∧ b < 0x7f) → P (.string t)

/-! ### Names -/

/-- Letters and digits can be printed and may stand in symbols; what is printed can be read. -/
theorem wordByte_classes : ∀ b : UInt8,
    (Text.isLetter b = true → Datum.Lexer.isSymbolStart b = true) ∧
    ((Text.isLetter b || Text.isDigit b) = true →
      (0x20 ≤ b ∧ b < 0x7f) ∧ Datum.Lexer.isSymbolByte b = true) ∧
    (0x20 ≤ b ∧ b < 0x7f → b < 0x80 ∧ Datum.Lexer.isReadable (.char b.toNat) = true) := by
  decide +kernel

theorem Utf8.glyphs_of_ascii {t : Text} (h : ∀ b ∈ t, b < 0x80) :
    glyphs t = t.map fun b => .char b.toNat := by
  induction t with
  | nil => rw [glyphs, List.map_nil]
  | cons b t ih =>
    obtain ⟨hb, ht⟩ := List.forall_mem_cons.mp h
    have hdecode : decodeAfter? b t = some (b.toNat, t) := by
      unfold decodeAfter?
      rw [if_pos hb]
    rw [glyphs]
    split
    · rename_i h'
      rw [hdecode] at h'
      cases h'
      rw [ih ht, List.map_cons]
    · rename_i h'
      rw [hdecode] at h'
      cases h'

namespace Datum

open Datum.Lexer (IsSymbol isReadable isSymbolByte isSymbolStart)

theorem isReadable_of_printed {t : Text} (h : ∀ b ∈ t, 0x20 ≤ b ∧ b < 0x7f) :
    (Utf8.glyphs t).all isReadable = true := by
  have hbytes := fun b hb => (wordByte_classes b).2.2 (h b hb)
  rw [Utf8.glyphs_of_ascii fun b hb => (hbytes b hb).1, List.all_map, List.all_eq_true]
  exact fun b hb => (hbytes b hb).2

theorem isSymbol_of_isName {t : Text} (h : t.IsName) : IsSymbol t := by
  obtain ⟨b, r, rfl, hb⟩ := h.first
  refine ⟨b, r, rfl, (wordByte_classes b).1 hb, fun c hc => ?_⟩
  exact ((wordByte_classes c).2.1 (h.word c (List.mem_cons_of_mem b hc))).2

theorem IsSymbol.isSymbolByte {t : Text} (h : IsSymbol t) : ∀ b ∈ t, isSymbolByte b = true := by
  have hstart (b : UInt8) (hb : isSymbolStart b = true) : Lexer.isSymbolByte b = true := by
    simp only [isSymbolStart, Bool.or_eq_true] at hb
    rcases hb with hb | hb <;> simp [Lexer.isSymbolByte, hb]
  obtain ⟨b, r, rfl, hb, hr⟩ := h
  exact List.forall_mem_cons.mpr ⟨hstart b hb, hr⟩

theorem isSymbol_append {t u : Text} (ht : IsSymbol t) (hu : ∀ b ∈ u, isSymbolByte b = true) :
    IsSymbol (t ++ u) := by
  obtain ⟨b, r, rfl, hb, hr⟩ := ht
  exact ⟨b, r ++ u, rfl, hb, List.forall_mem_append.mpr ⟨hr, hu⟩⟩

/-- A check for symbols that are known. -/
def symbolCheck : Text → Bool
  | [] => false
  | b :: r => isSymbolStart b && r.all isSymbolByte

theorem isSymbol_of_check {t : Text} (h : symbolCheck t = true) : IsSymbol t := by
  cases t with
  | nil => cases h
  | cons b r =>
    rw [symbolCheck, Bool.and_eq_true, List.all_eq_true] at h
    exact ⟨b, r, rfl, h⟩

theorem isSymbol_kind (k : Kind) : IsSymbol k.name := by
  apply isSymbol_of_check
  cases k <;> rfl

theorem isSymbol_type {libs : List Library} {t : Ty} (h : t.Legible libs) : IsSymbol t.name := by
  have hlist (k e : Kind) : IsSymbol (k.name ++ "<" ++ e.name ++ ">") := by
    refine isSymbol_append (isSymbol_append (isSymbol_append (isSymbol_kind k) ?_) ?_) ?_
    · exact List.forall_mem_singleton.mpr rfl
    · exact IsSymbol.isSymbolByte (isSymbol_kind e)
    · exact List.forall_mem_singleton.mpr rfl
  obtain ⟨kind, elem, className⟩ := t
  cases kind with
  | list | graph => exact hlist _ elem
  | class_ => exact isSymbol_of_isName h
  | _ =>
    simp only [Ty.name]
    exact isSymbol_kind _

/-! ### Properties of data -/

theorem passes_steady : Passes fun d => ∃ es, Steady d es where
  list h := by
    obtain ⟨e, he⟩ := isSteady_list h
    exact ⟨[e], he⟩
  array h := by
    obtain ⟨e, he⟩ := isSteady_array h
    exact ⟨[e], he⟩
  symbol h := ⟨_, steady_symbol h⟩
  number h := ⟨_, steady_numeral h⟩
  string h := by
    obtain ⟨e, he⟩ := isSteady_string (isReadable_of_printed h)
    exact ⟨[e], he⟩

namespace Passes

variable {P : Datum → Prop}

/-- A list headed by a word. -/
theorem form (hP : Passes P) {word : Text} (hword : symbolCheck word = true) {items : List Datum}
    (h : ∀ d ∈ items, P d) : P (form word items) :=
  hP.list (List.forall_mem_cons.mpr ⟨hP.symbol (isSymbol_of_check hword), h⟩)

theorem name (hP : Passes P) {t : Text} (h : t.IsName) : P (.string t) :=
  hP.string fun b hb => ((wordByte_classes b).2.1 (h.word b hb)).1

theorem type (hP : Passes P) {libs : List Library} {t : Ty} (h : t.Legible libs) : P t.datum :=
  hP.symbol (isSymbol_type h)

theorem int (hP : Passes P) (v : Int64) : P (.number (Text.ofInt v.toInt)) := by
  have hlow := v.le_toInt
  have hhigh := v.toInt_lt
  have hsmall : v.toInt.natAbs < 10 ^ 20 := by omega
  exact hP.number (Text.isNumeral_ofInt (by decide)
    (hsmall.trans (pow_lt_pow_right₀ (by decide) (by decide))))

theorem binaryOp (hP : Passes P) {op : BinaryOp} (h : op.IsWritten) : P (.string op.spelling) := by
  have hall : ∀ op ∈ BinaryOp.all, ∀ b ∈ op.spelling, 0x20 ≤ b ∧ b < 0x7f := by
    decide +kernel
  exact hP.string (hall op h)

theorem unaryOp (hP : Passes P) {op : UnaryOp} (h : op.IsWritten) : P (.string op.spelling) := by
  rcases h with rfl | rfl <;> exact hP.string (by decide +kernel)

theorem access (hP : Passes P) {a : Access} (hname : a.name.IsName) (hmember : a.member.IsName)
    {args : List Datum} (hargs : ∀ d ∈ args, P d) : P (Node.accessDatum a args) := by
  have hvar : P (Node.varDatum a.name) := hP.form rfl (List.forall_mem_singleton.mpr (hP.name hname))
  apply hP.form rfl
  refine List.forall_mem_cons.mpr ⟨hvar, List.forall_mem_cons.mpr ⟨hP.name hmember, ?_⟩⟩
  split
  · exact List.forall_mem_singleton.mpr (hP.array hargs)
  · exact List.forall_mem_nil _

theorem params (hP : Passes P) {libs : List Library} {word : Text}
    (hword : symbolCheck word = true) {ps : List Param}
    (h : ∀ p ∈ ps, p.name.IsName ∧ p.type.Legible libs) :
    P (.array (ps.map (Param.datum word))) := by
  apply hP.array
  intro d hd
  obtain ⟨p, hp, rfl⟩ := List.mem_map.mp hd
  apply hP.form hword
  simp only [List.forall_mem_cons]
  exact ⟨hP.name (h p hp).1, hP.type (h p hp).2, List.forall_mem_nil _⟩

end Passes

end Datum

/-! ### Literals -/

/-- What a literal of a tree holds, integers and truth values apart. -/
inductive Literal where
  | text (contents : Text)
  | float (v : Double)

namespace Literal

def datum : Literal → Datum
  | text contents => .string contents
  | float v => .number (Layout.plain.text v)

/-- The literal can stand in a source text. -/
def IsRead : Literal → Prop
  | text _ => True
  | float v => IsFloatLiteral v

/-- A string can show what the literal holds. -/
def isReadable : Literal → Bool
  | text contents => (Utf8.glyphs contents).all Datum.Lexer.isReadable
  | float _ => true

theorem steady {l : Literal} (h : l.isReadable = true) : ∃ es, Datum.Steady l.datum es := by
  cases l with
  | text contents =>
    obtain ⟨e, he⟩ := Datum.isSteady_string h
    exact ⟨[e], he⟩
  | float v => exact Layout.steady_text v

end Literal

namespace Node

mutual

/-- The literals of a tree in order. -/
def literals : Node → List Literal
  | .char _ v => [.text [v]]
  | .string _ v => [.text v]
  | .float _ v => [.float v]
  | .binary _ _ l r => literals l ++ literals r
  | .unary _ _ x | .print _ x | .exprStmt _ x => literals x
  | .call _ _ xs | .dot _ xs | .listDecl _ _ _ xs => allLiterals xs
  | .varDef _ _ _ x | .assign _ _ x | .fieldAssign _ _ _ x | .ret _ (some x) => literals x
  | .branch _ _ test yes none => literals test ++ allLiterals yes
  | .branch _ _ test yes (some no) => literals test ++ allLiterals yes ++ allLiterals no
  | .whileLoop _ _ test body => literals test ++ allLiterals body
  | .forLoop _ _ init test step body =>
    literals init ++ literals test ++ literals step ++ allLiterals body
  | .funcDef _ _ _ _ body => allLiterals body
  | _ => []
termination_by structural n => n

def allLiterals : List Node → List Literal
  | [] => []
  | n :: rest => literals n ++ allLiterals rest
termination_by structural ns => ns

end

mutual

/-- Strings can show what the literals of the tree hold. -/
def readable : Node → Bool
  | .char _ v => (Utf8.glyphs [v]).all Datum.Lexer.isReadable
  | .string _ v => (Utf8.glyphs v).all Datum.Lexer.isReadable
  | .binary _ _ l r => readable l && readable r
  | .unary _ _ x | .print _ x | .exprStmt _ x => readable x
  | .call _ _ xs | .dot _ xs | .listDecl _ _ _ xs => allReadable xs
  | .varDef _ _ _ x | .assign _ _ x | .fieldAssign _ _ _ x | .ret _ (some x) => readable x
  | .branch _ _ test yes none => readable test && allReadable yes
  | .branch _ _ test yes (some no) => readable test && allReadable yes && allReadable no
  | .whileLoop _ _ test body => readable test && allReadable body
  | .forLoop _ _ init test step body =>
    readable init && readable test && readable step && allReadable body
  | .funcDef _ _ _ _ body => allReadable body
  | _ => true
termination_by structural n => n

def allReadable : List Node → Bool
  | [] => true
  | n :: rest => readable n && allReadable rest
termination_by structural ns => ns

end

mutual

theorem readable_eq (n : Node) : n.readable = n.literals.all Literal.isReadable := by
  cases n with
  | char m v => simp [readable, literals, Literal.isReadable]
  | string m v => simp [readable, literals, Literal.isReadable]
  | binary m op l r => rw [readable, literals, List.all_append, readable_eq l, readable_eq r]
  | unary m op x => exact readable_eq x
  | print m x => exact readable_eq x
  | exprStmt m x => exact readable_eq x
  | call m name xs => exact allReadable_eq xs
  | dot a xs => exact allReadable_eq xs
  | listDecl m name k xs => exact allReadable_eq xs
  | varDef m name t x => exact readable_eq x
  | assign m name x => exact readable_eq x
  | fieldAssign m a xs x => exact readable_eq x
  | ret m x =>
    cases x with
    | none => rfl
    | some x => exact readable_eq x
  | branch m merge test yes no =>
    cases no with
    | none => rw [readable, literals, List.all_append, readable_eq test, allReadable_eq yes]
    | some no =>
      rw [readable, literals, List.all_append, List.all_append, readable_eq test,
        allReadable_eq yes, allReadable_eq no]
  | whileLoop m merge test body =>
    rw [readable, literals, List.all_append, readable_eq test, allReadable_eq body]
  | forLoop m merge init test step body =>
    rw [readable, literals, List.all_append, List.all_append, List.all_append, readable_eq init,
      readable_eq test, readable_eq step, allReadable_eq body]
  | funcDef m name params result body => exact allReadable_eq body
  | _ => rfl
termination_by structural n

theorem allReadable_eq (ns : List Node) :
    allReadable ns = (allLiterals ns).all Literal.isReadable := by
  cases ns with
  | nil => rfl
  | cons n ns => rw [allReadable, allLiterals, List.all_append, readable_eq n, allReadable_eq ns]
termination_by structural ns

end

/-! ### Trees -/

section

variable {P : Datum → Prop} {libs : List Library}

mutual

/-- What passes from items to lists holds of a legible tree if it holds of its literals. -/
theorem passes_expr (hP : Datum.Passes P) {n : Node} (hn : n.IsExpr) (hl : n.Legible libs)
    (h : ∀ l ∈ n.literals, l.IsRead → P l.datum) : P n.datum := by
  cases n with
  | int m v => exact hP.form rfl (List.forall_mem_singleton.mpr (hP.int v))
  | float m v =>
    have hv := h (.float v) (List.mem_singleton.mpr rfl) hl
    exact hP.form rfl (List.forall_mem_singleton.mpr hv)
  | char m v =>
    have hv := h (.text [v]) (List.mem_singleton.mpr rfl) trivial
    exact hP.form rfl (List.forall_mem_singleton.mpr hv)
  | string m v =>
    have hv := h (.text v) (List.mem_singleton.mpr rfl) trivial
    exact hP.form rfl (List.forall_mem_singleton.mpr hv)
  | bool m v =>
    refine hP.form rfl (List.forall_mem_singleton.mpr (hP.symbol ?_))
    cases v <;> exact Datum.isSymbol_of_check rfl
  | var m name => exact hP.form rfl (List.forall_mem_singleton.mpr (hP.name hl))
  | binary m op l r =>
    rw [literals, List.forall_mem_append] at h
    have hleft := passes_expr hP hn.1 hl.2.1 h.1
    have hright := passes_expr hP hn.2 hl.2.2 h.2
    apply hP.form rfl
    simp only [List.forall_mem_cons]
    exact ⟨hP.binaryOp hl.1, hleft, hright, List.forall_mem_nil _⟩
  | unary m op x =>
    have hx := passes_expr hP (n := x) hn hl.2 h
    apply hP.form rfl
    simp only [List.forall_mem_cons]
    exact ⟨hP.unaryOp hl.1, hx, List.forall_mem_nil _⟩
  | call m name xs =>
    have hxs := hP.array (passes_exprs hP hn hl.2 h)
    apply hP.form rfl
    simp only [List.forall_mem_cons]
    exact ⟨hP.name hl.1, hxs, List.forall_mem_nil _⟩
  | dot a xs => exact hP.access hl.1 hl.2.1 (passes_exprs hP hn.1 hl.2.2 h)
  | _ => exact hn.elim
termination_by structural n

theorem passes_exprs (hP : Datum.Passes P) {xs : List Node} (hxs : AllExpr xs)
    (hl : AllLegible libs xs) (h : ∀ l ∈ allLiterals xs, l.IsRead → P l.datum) : ∀ d ∈ data xs, P d := by
  cases xs with
  | nil => exact List.forall_mem_nil _
  | cons x xs =>
    rw [allLiterals, List.forall_mem_append] at h
    exact List.forall_mem_cons.mpr ⟨passes_expr hP hxs.1 hl.1 h.1, passes_exprs hP hxs.2 hl.2 h.2⟩
termination_by structural xs

end

theorem passes_simple (hP : Datum.Passes P) {n : Node} (hn : n.IsSimple) (hl : n.Legible libs)
    (h : ∀ l ∈ n.literals, l.IsRead → P l.datum) : P n.datum := by
  cases n with
  | varDecl m name t =>
    apply hP.form rfl
    simp only [List.forall_mem_cons]
    exact ⟨hP.name hl.1, hP.type hl.2, List.forall_mem_nil _⟩
  | varDef m name t x =>
    have hx := passes_expr hP hn.2.2 hl.2.2 h
    apply hP.form rfl
    simp only [List.forall_mem_cons]
    exact ⟨hP.name hl.1, hP.type hl.2.1, hx, List.forall_mem_nil _⟩
  | assign m name x =>
    have hx := passes_expr hP (n := x) hn hl.2 h
    apply hP.form rfl
    simp only [List.forall_mem_cons]
    exact ⟨hP.name hl.1, hx, List.forall_mem_nil _⟩
  | fieldAssign m a xs x =>
    obtain ⟨rfl, -, hx⟩ := hn
    have hx := passes_expr hP hx hl.2.2 h
    apply hP.form rfl
    simp only [List.forall_mem_cons]
    exact ⟨hP.access hl.1 hl.2.1 (List.forall_mem_nil _), hx, List.forall_mem_nil _⟩
  | listDecl m name k xs =>
    apply hP.form rfl
    simp only [List.forall_mem_cons]
    exact ⟨hP.name hl.1, hP.symbol (Datum.isSymbol_kind k),
      hP.array (passes_exprs hP hn.2 hl.2.2 h), List.forall_mem_nil _⟩
  | graphDecl m name k =>
    apply hP.form rfl
    simp only [List.forall_mem_cons]
    exact ⟨hP.name hl.1, hP.symbol (Datum.isSymbol_kind k), List.forall_mem_nil _⟩
  | exprStmt m x => exact passes_expr hP (n := x) hn hl h
  | _ => exact hn.elim

mutual

theorem passes_stmt (hP : Datum.Passes P) {n : Node} (hn : n.IsStmt) (hl : n.Legible libs)
    (h : ∀ l ∈ n.literals, l.IsRead → P l.datum) : P n.datum := by
  cases n with
  | ret m x =>
    cases x with
    | none => exact hP.form rfl (List.forall_mem_nil _)
    | some x =>
      have hx := passes_expr hP (n := x) hn hl h
      exact hP.form rfl (List.forall_mem_singleton.mpr hx)
  | branch m merge test yes no =>
    cases no with
    | none =>
      rw [literals, List.forall_mem_append] at h
      have htest := passes_expr hP hn.1 hl.1 h.1
      have hyes := hP.array (passes_stmts hP hn.2 hl.2 h.2)
      apply hP.form rfl
      simp only [List.forall_mem_cons]
      exact ⟨htest, hyes, List.forall_mem_nil _⟩
    | some no =>
      rw [literals, List.forall_mem_append, List.forall_mem_append] at h
      have htest := passes_expr hP hn.1 hl.1 h.1.1
      have hyes := hP.array (passes_stmts hP hn.2.1 hl.2.1 h.1.2)
      have hno := hP.array (passes_stmts hP hn.2.2 hl.2.2 h.2)
      apply hP.form rfl
      simp only [List.forall_mem_cons]
      exact ⟨htest, hyes, hno, List.forall_mem_nil _⟩
  | whileLoop m merge test body =>
    rw [literals, List.forall_mem_append] at h
    have htest := passes_expr hP hn.1 hl.1 h.1
    have hbody := hP.array (passes_stmts hP hn.2 hl.2 h.2)
    apply hP.form rfl
    simp only [List.forall_mem_cons]
    exact ⟨htest, hbody, List.forall_mem_nil _⟩
  | forLoop m merge init test step body =>
    simp only [literals, List.forall_mem_append] at h
    have hinit := passes_simple hP hn.1 hl.1 h.1.1.1
    have htest := passes_expr hP hn.2.1 hl.2.1 h.1.1.2
    have hstep := passes_simple hP hn.2.2.1 hl.2.2.1 h.1.2
    have hbody := hP.array (passes_stmts hP hn.2.2.2 hl.2.2.2 h.2)
    apply hP.form rfl
    simp only [List.forall_mem_cons]
    exact ⟨hinit, htest, hstep, hbody, List.forall_mem_nil _⟩
  | print m x =>
    have hx := passes_expr hP (n := x) hn hl h
    exact hP.form rfl (List.forall_mem_singleton.mpr hx)
  | _ => exact passes_simple hP hn hl h
termination_by structural n

theorem passes_stmts (hP : Datum.Passes P) {ns : List Node} (hns : AllStmt ns)
    (hl : AllLegible libs ns) (h : ∀ l ∈ allLiterals ns, l.IsRead → P l.datum) : ∀ d ∈ data ns, P d := by
  cases ns with
  | nil => exact List.forall_mem_nil _
  | cons n ns =>
    rw [allLiterals, List.forall_mem_append] at h
    exact List.forall_mem_cons.mpr ⟨passes_stmt hP hns.1 hl.1 h.1, passes_stmts hP hns.2 hl.2 h.2⟩
termination_by structural ns

end

theorem passes_item (hP : Datum.Passes P) {n : Node} (hn : n.IsItem) (hl : n.Legible libs)
    (h : ∀ l ∈ n.literals, l.IsRead → P l.datum) : P n.datum := by
  cases n with
  | includeLib m library =>
    obtain ⟨l, rfl⟩ := hl
    refine hP.form rfl (List.forall_mem_singleton.mpr (hP.symbol ?_))
    cases l <;> exact Datum.isSymbol_of_check rfl
  | classDecl m name fields =>
    apply hP.form rfl
    simp only [List.forall_mem_cons]
    exact ⟨hP.name hl.1, hP.params rfl hl.2, List.forall_mem_nil _⟩
  | funcDef m name params result body =>
    have hbody := hP.array (passes_stmts hP hn.2.2 hl.2.2.2 h)
    apply hP.form rfl
    simp only [List.forall_mem_cons]
    exact ⟨hP.name hl.1, hP.params rfl hl.2.1, hP.type hl.2.2.1, hbody, List.forall_mem_nil _⟩
  | _ => exact passes_stmt hP hn hl h

theorem passes_items (hP : Datum.Passes P) {ns : List Node} (hns : ItemsLegible libs ns)
    (h : ∀ l ∈ allLiterals ns, l.IsRead → P l.datum) : ∀ d ∈ data ns, P d := by
  induction ns generalizing libs with
  | nil => exact List.forall_mem_nil _
  | cons n ns ih =>
    rw [allLiterals, List.forall_mem_append] at h
    exact List.forall_mem_cons.mpr ⟨passes_item hP hns.1 hns.2.1 h.1, ih hns.2.2 h.2⟩

end

end Node

theorem Program.read_dump {key : Nat} {source : Text} {p : Program}
    (h : Program.parse key source = .ok p) (hr : Node.allReadable p.body = true) :
    ∃ d, Datum.read p.node.dump = .ok d ∧ d.accepts d = true ∧ byte '\n' ∉ p.node.dump := by
  rw [Node.allReadable_eq, List.all_eq_true] at hr
  have hitems := Node.passes_items Datum.passes_steady (Program.parse_legible h)
    fun l hl _ => Literal.steady (hr l hl)
  have hword : Datum.Lexer.IsSymbol "program" := Datum.isSymbol_of_check rfl
  obtain ⟨d, hd, hself⟩ :=
    Datum.isSteady_list (List.forall_mem_cons.mpr ⟨⟨_, Datum.steady_symbol hword⟩, hitems⟩)
  obtain ⟨ts, hts, -⟩ := hd.derives
  exact ⟨d, Datum.read_of_written hd, hself d (List.mem_singleton.mpr rfl), hts.line⟩

end Augite

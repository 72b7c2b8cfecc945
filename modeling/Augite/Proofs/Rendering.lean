import Augite.Proofs.Layout

/-!
# Writing programs

A program is written as its lexemes with a space between any two of them. Operands of
operators stand in parentheses and every second arm of a conditional in braces; inside quotes
the bytes that have to be are escaped. How a float is spelled is left open: `spell` gives the
digits.

The lexemes of a part are put in front of those that follow it, so that the text of a
program is built from its end.
-/

namespace Augite

/-! ### Words -/

/-- The byte that stands behind a backslash for `b`, where `b` cannot stand for itself. -/
def escapeLetter? (mark b : UInt8) : Option UInt8 :=
  if b = 10 then some (byte 'n')
  else if b = 9 then some (byte 't')
  else if b = 0 then some (byte '0')
  else if b = byte '\\' ∨ b = mark then some b
  else none

/-- A text behind an opening quotation mark, with the closing one. -/
def enclosed (mark : UInt8) : Text → Text
  | [] => [mark]
  | b :: rest =>
    match escapeLetter? mark b with
    | some e => byte '\\' :: e :: enclosed mark rest
    | none => b :: enclosed mark rest

/-- A lexeme as it is written. -/
def Lexeme.written : Lexeme → Text
  | char b => byte '\'' :: enclosed (byte '\'') [b]
  | string s => byte '"' :: enclosed (byte '"') s
  | l => l.text

/-- The symbol that an operator is spelled with. -/
def operatorLexemes (spelling : Text) (ks : List Lexeme) : List Lexeme :=
  (Symbol.ofPrefix? spelling).toList.map .symbol ++ ks

/-! ### Types -/

/-- The keyword of a scalar kind or of no value. -/
def Kind.keyword : Kind → Keyword
  | int => .int_
  | float => .float_
  | char => .char_
  | string => .string_
  | bool => .bool_
  | _ => .void_

def Ty.lexemes (t : Ty) (ks : List Lexeme) : List Lexeme :=
  match t.kind with
  | .list => .keyword .list_ :: .symbol .lt :: .keyword t.elem.keyword :: .symbol .gt :: ks
  | .graph => .keyword .graph_ :: .symbol .lt :: .keyword t.elem.keyword :: .symbol .gt :: ks
  | .class_ => .ident t.className :: ks
  | k => .keyword k.keyword :: ks

/-- A name and its type. -/
def Param.lexemes (p : Param) (ks : List Lexeme) : List Lexeme :=
  .ident p.name :: .symbol .colon :: p.type.lexemes ks

/-- A comma in front of all but the first. -/
def separated (first : Bool) (ks : List Lexeme) : List Lexeme :=
  if first then ks else .symbol .comma :: ks

/-- Parameters with the closing parenthesis. -/
def parameterLexemes (first : Bool) : List Param → List Lexeme → List Lexeme
  | [], ks => .symbol .rparen :: ks
  | p :: ps, ks => separated first (p.lexemes (parameterLexemes false ps ks))

/-- Fields with the closing brace. -/
def fieldLexemes : List Param → List Lexeme → List Lexeme
  | [], ks => .symbol .rbrace :: ks
  | p :: ps, ks => p.lexemes (.symbol .semicolon :: fieldLexemes ps ks)

/-- The keyword of a library by its name. -/
def libraryKeyword (library : Text) : Keyword :=
  if library = Library.list.name then .list_ else .graph_

/-! ### Trees -/

namespace Node

variable (spell : Double → Text)

mutual

def exprLexemes : Node → List Lexeme → List Lexeme
  | .int _ v, ks => .int v (Text.decimal v.toInt.toNat) :: ks
  | .float _ v, ks => .float v (spell v) :: ks
  | .char _ b, ks => .char b :: ks
  | .string _ s, ks => .string s :: ks
  | .bool _ b, ks => .keyword (if b then .true_ else .false_) :: ks
  | .var _ name, ks => .ident name :: ks
  | .binary _ op l r, ks =>
    .symbol .lparen :: exprLexemes l (.symbol .rparen :: operatorLexemes op.spelling
      (.symbol .lparen :: exprLexemes r (.symbol .rparen :: ks)))
  | .unary _ op x, ks =>
    operatorLexemes op.spelling (.symbol .lparen :: exprLexemes x (.symbol .rparen :: ks))
  | .call _ name xs, ks => .ident name :: .symbol .lparen :: operandLexemes .rparen true xs ks
  | .dot a xs, ks =>
    .ident a.name :: .symbol .dot :: .ident a.member ::
      if a.parens then .symbol .lparen :: operandLexemes .rparen true xs ks else ks
  | _, ks => ks
termination_by structural n => n

/-- Expressions with the closing symbol. -/
def operandLexemes (closing : Symbol) (first : Bool) : List Node → List Lexeme → List Lexeme
  | [], ks => .symbol closing :: ks
  | x :: xs, ks => separated first (exprLexemes x (operandLexemes closing false xs ks))
termination_by structural xs => xs

end

def simpleLexemes : Node → List Lexeme → List Lexeme
  | .varDecl _ name t, ks => .ident name :: .symbol .colon :: t.lexemes ks
  | .varDef _ name t x, ks =>
    .ident name :: .symbol .colon :: t.lexemes (.symbol .assign :: exprLexemes spell x ks)
  | .assign _ name x, ks => .ident name :: .symbol .assign :: exprLexemes spell x ks
  | .fieldAssign _ a _ x, ks =>
    .ident a.name :: .symbol .dot :: .ident a.member :: .symbol .assign :: exprLexemes spell x ks
  | .listDecl _ name k xs, ks =>
    .ident name :: .symbol .colon :: (Ty.listOf k).lexemes
      (.symbol .assign :: .symbol .lbracket :: operandLexemes spell .rbracket true xs ks)
  | .graphDecl _ name k, ks => .ident name :: .symbol .colon :: (Ty.graphOf k).lexemes ks
  | .exprStmt _ x, ks => exprLexemes spell x ks
  | _, ks => ks

/-- A condition in parentheses. -/
def conditionLexemes (test : Node) (ks : List Lexeme) : List Lexeme :=
  .symbol .lparen :: exprLexemes spell test (.symbol .rparen :: ks)

mutual

def stmtLexemes : Node → List Lexeme → List Lexeme
  | .ret _ none, ks => .keyword .return_ :: .symbol .semicolon :: ks
  | .ret _ (some x), ks => .keyword .return_ :: exprLexemes spell x (.symbol .semicolon :: ks)
  | .branch _ _ test yes none, ks =>
    .keyword .if_ :: conditionLexemes spell test (.symbol .lbrace :: stmtsLexemes yes ks)
  | .branch _ _ test yes (some no), ks =>
    .keyword .if_ :: conditionLexemes spell test (.symbol .lbrace :: stmtsLexemes yes
      (.keyword .else_ :: .symbol .lbrace :: stmtsLexemes no ks))
  | .whileLoop _ _ test body, ks =>
    .keyword .while_ :: conditionLexemes spell test (.symbol .lbrace :: stmtsLexemes body ks)
  | .forLoop _ _ init test step body, ks =>
    .keyword .for_ :: .symbol .lparen :: simpleLexemes spell init (.symbol .semicolon ::
      exprLexemes spell test (.symbol .semicolon :: simpleLexemes spell step (.symbol .rparen ::
        .symbol .lbrace :: stmtsLexemes body ks)))
  | .print _ x, ks => .keyword .print_ :: conditionLexemes spell x (.symbol .semicolon :: ks)
  | n, ks => simpleLexemes spell n (.symbol .semicolon :: ks)
termination_by structural n => n

/-- Statements with the closing brace. -/
def stmtsLexemes : List Node → List Lexeme → List Lexeme
  | [], ks => .symbol .rbrace :: ks
  | n :: rest, ks => stmtLexemes n (stmtsLexemes rest ks)
termination_by structural ns => ns

end

def itemLexemes : Node → List Lexeme → List Lexeme
  | .includeLib _ library, ks =>
    .keyword .include_ :: .keyword (libraryKeyword library) :: .symbol .semicolon :: ks
  | .classDecl _ name fields, ks =>
    .keyword .class_ :: .ident name :: .symbol .lbrace :: fieldLexemes fields ks
  | .funcDef _ name params result body, ks =>
    .keyword .def_ :: .ident name :: .symbol .lparen :: parameterLexemes true params
      (.symbol .arrow :: result.lexemes (.symbol .lbrace :: stmtsLexemes spell body ks))
  | n, ks => stmtLexemes spell n ks

def itemsLexemes : List Node → List Lexeme
  | [] => []
  | n :: rest => itemLexemes spell n (itemsLexemes rest)

end Node

/-- The text of a program. -/
def Program.render (spell : Double → Text) (p : Program) : Text :=
  Text.join " " ((Node.itemsLexemes spell p.body).map Lexeme.written)

/-! ### Digits -/

namespace Text

theorem toNat_digit (n : Nat) : (digit n).toNat = 48 + n % 10 := by
  simp [digit]
  omega

theorem isDigit_digit (n : Nat) : isDigit (digit n) = true := by
  have h := toNat_digit n
  simp only [isDigit, Bool.and_eq_true, decide_eq_true_eq, UInt8.le_iff_toNat_le, h]
  exact ⟨Nat.le_add_right _ _, by change _ ≤ 57; omega⟩

theorem digitsValue_append (ds : Text) (d : UInt8) :
    digitsValue (ds ++ [d]) = 10 * digitsValue ds + (d.toNat - 48) := by
  simp [digitsValue]

theorem digitsValue_decimal (n : Nat) : digitsValue (decimal n) = n := by
  fun_induction decimal n with
  | case1 n h =>
    simp [digitsValue, toNat_digit]
    omega
  | case2 n h ih =>
    rw [digitsValue_append, ih, toNat_digit]
    omega

theorem isDigit_of_mem_decimal (n : Nat) : ∀ b ∈ decimal n, isDigit b = true := by
  fun_induction decimal n with
  | case1 n h => exact List.forall_mem_singleton.mpr (isDigit_digit n)
  | case2 n h ih =>
    intro b hb
    obtain hb | hb := List.mem_append.mp hb
    · exact ih b hb
    · rw [List.mem_singleton.mp hb]
      exact isDigit_digit n

theorem decimal_ne_nil (n : Nat) : decimal n ≠ [] := by
  rw [decimal]
  split
  · exact List.cons_ne_nil _ _
  · exact List.append_ne_nil_of_right_ne_nil _ (List.cons_ne_nil _ _)

end Text

/-! ### Written lexemes are read back -/

namespace Lexer

theorem escape?_escapeLetter? {mark b e : UInt8} (hmark : mark = byte '"' ∨ mark = byte '\'')
    (h : escapeLetter? mark b = some e) : escape? e = some b := by
  unfold escapeLetter? at h
  split at h
  · cases h
    subst b
    rfl
  · split at h
    · cases h
      subst b
      rfl
    · split at h
      · cases h
        subst b
        rfl
      · split at h
        · rename_i hb
          cases h
          obtain rfl | rfl := hb
          · rfl
          · obtain rfl | rfl := hmark <;> rfl
        · cases h

theorem ne_of_escapeLetter? {mark b : UInt8} (h : escapeLetter? mark b = none) :
    b ≠ byte '\n' ∧ b ≠ mark ∧ b ≠ byte '\\' := by
  unfold escapeLetter? at h
  split at h
  · cases h
  · rename_i hline
    split at h
    · cases h
    · split at h
      · cases h
      · split at h
        · cases h
        · rename_i hother
          exact ⟨hline, fun hb => hother (.inr hb), fun hb => hother (.inl hb)⟩

/-- A text in quotes is read as itself. -/
theorem quoted_enclosed {mark : UInt8} (hmark : mark = byte '"' ∨ mark = byte '\'') (s : Text) :
    quoted mark (enclosed mark s) = (.ok s, (enclosed mark s).length) := by
  induction s with
  | nil => obtain rfl | rfl := hmark <;> rfl
  | cons b rest ih =>
    rw [enclosed]
    split
    · rename_i e he
      have hslash : mark ≠ byte '\\' := by obtain rfl | rfl := hmark <;> decide
      exact quoted_escape hslash (escape?_escapeLetter? hmark he) ih
    · rename_i hb
      obtain ⟨hline, hclose, hslash⟩ := ne_of_escapeLetter? hb
      exact quoted_plain hline hclose hslash ih

theorem spells_keyword (k : Keyword) : Spells k.spelling (.keyword k) := by
  have hword : Lexeme.ofWord k.spelling = .keyword k := by cases k <;> rfl
  rw [← hword]
  cases k <;> exact spells_word rfl (by decide +kernel)

theorem spells_name {name : Text} (h : name.IsName) : Spells name (.ident name) := by
  obtain ⟨⟨b, r, rfl, hb⟩, hword, hfree⟩ := h
  have hident : Lexeme.ofWord (b :: r) = .ident (b :: r) := by rw [Lexeme.ofWord, hfree]
  rw [← hident]
  exact spells_word hb fun c hc => hword c (List.mem_cons_of_mem _ hc)

theorem spells_decimal {v : Int64} (h : IsIntLiteral v) :
    Spells (Text.decimal v.toInt.toNat) (.int v (Text.decimal v.toInt.toNat)) := by
  obtain ⟨n, hn, rfl⟩ := h
  rw [Int64.toInt_ofNat_of_lt hn, Int.toNat_natCast]
  refine spells_int (Text.decimal_ne_nil n) (Text.isDigit_of_mem_decimal n) ?_
  simp only [intOf, Text.digitsValue_decimal]
  exact if_pos hn

theorem spells_fraction {t : Text} {v : Double} (ht : t.IsFraction) (hv : Double.ofText t = .ok v) :
    Spells t (.float v t) := by
  obtain ⟨whole, part, rfl, hwhole, hdigits, hpart, hdigits'⟩ := ht
  refine spells_float hwhole hdigits hpart hdigits' ?_
  rw [floatOf, hv]

end Lexer

/-- The digits that `spell` gives are a fraction that is read as the float they are for. -/
def Spelling (spell : Double → Text) : Prop :=
  ∀ v, IsFloatLiteral v → (spell v).IsFraction ∧ Double.ofText (spell v) = .ok v

/-- Every lexeme is written so that it is read as itself. -/
def AllWritten (ls : List Lexeme) : Prop := ∀ l ∈ ls, Lexer.Spells l.written l

namespace AllWritten

variable {ks : List Lexeme}

theorem nil : AllWritten [] := nofun

theorem cons {l : Lexeme} (hl : Lexer.Spells l.written l) (hks : AllWritten ks) :
    AllWritten (l :: ks) :=
  List.forall_mem_cons.mpr ⟨hl, hks⟩

theorem symbol (x : Symbol) (hks : AllWritten ks) : AllWritten (.symbol x :: ks) :=
  cons (Lexer.spells_symbol x) hks

theorem keyword (k : Keyword) (hks : AllWritten ks) : AllWritten (.keyword k :: ks) :=
  cons (Lexer.spells_keyword k) hks

theorem ident {name : Text} (h : name.IsName) (hks : AllWritten ks) :
    AllWritten (.ident name :: ks) :=
  cons (Lexer.spells_name h) hks

theorem operator (spelling : Text) (hks : AllWritten ks) :
    AllWritten (operatorLexemes spelling ks) := by
  unfold operatorLexemes
  cases Symbol.ofPrefix? spelling with
  | none => exact hks
  | some x => exact symbol x hks

theorem separated (first : Bool) (hks : AllWritten ks) : AllWritten (separated first ks) := by
  cases first with
  | true => exact hks
  | false => exact symbol .comma hks

variable {libs : List Library}

theorem type {t : Ty} (ht : t.Legible libs) (hks : AllWritten ks) : AllWritten (t.lexemes ks) := by
  obtain ⟨kind, elem, className⟩ := t
  cases kind <;> first
    | exact ident ht hks
    | exact keyword _ (symbol _ (keyword _ (symbol _ hks)))
    | exact keyword _ hks

theorem parameters (first : Bool) {ps : List Param}
    (hps : ∀ p ∈ ps, p.name.IsName ∧ p.type.Legible libs) (hks : AllWritten ks) :
    AllWritten (parameterLexemes first ps ks) := by
  induction ps generalizing first with
  | nil => exact symbol _ hks
  | cons p ps ih =>
    obtain ⟨⟨hname, htype⟩, hps⟩ := List.forall_mem_cons.mp hps
    exact separated _ (ident hname (symbol _ (type htype (ih false hps))))

theorem fields {ps : List Param} (hps : ∀ p ∈ ps, p.name.IsName ∧ p.type.Legible libs)
    (hks : AllWritten ks) : AllWritten (fieldLexemes ps ks) := by
  induction ps with
  | nil => exact symbol _ hks
  | cons p ps ih =>
    obtain ⟨⟨hname, htype⟩, hps⟩ := List.forall_mem_cons.mp hps
    exact ident hname (symbol _ (type htype (symbol _ (ih hps))))

variable {spell : Double → Text} (hspell : Spelling spell)

include hspell

mutual

theorem expression (n : Node) (hn : n.Legible libs) {ks : List Lexeme} (hks : AllWritten ks) :
    AllWritten (n.exprLexemes spell ks) := by
  cases n with
  | int m v => exact cons (Lexer.spells_decimal hn) hks
  | float m v => exact cons (Lexer.spells_fraction (hspell v hn).1 (hspell v hn).2) hks
  | char m b => exact cons (Lexer.spells_char (Lexer.quoted_enclosed (.inr rfl) [b])) hks
  | string m s => exact cons (Lexer.spells_string (Lexer.quoted_enclosed (.inl rfl) s)) hks
  | bool m b => exact keyword _ hks
  | var m name => exact ident hn hks
  | binary m op l r =>
    obtain ⟨_, hl, hr⟩ := hn
    have hright := expression r hr (symbol .rparen hks)
    exact symbol _ (expression l hl (symbol _ (operator _ (symbol _ hright))))
  | unary m op x => exact operator _ (symbol _ (expression x hn.2 (symbol _ hks)))
  | call m name xs => exact ident hn.1 (symbol _ (operands .rparen true xs hn.2 hks))
  | dot a xs =>
    refine ident hn.1 (symbol _ (ident hn.2.1 ?_))
    split
    · exact symbol _ (operands .rparen true xs hn.2.2 hks)
    · exact hks
  | _ => exact hks

theorem operands (closing : Symbol) (first : Bool) (xs : List Node) (hxs : Node.AllLegible libs xs)
    {ks : List Lexeme} (hks : AllWritten ks) :
    AllWritten (Node.operandLexemes spell closing first xs ks) := by
  cases xs with
  | nil => exact symbol _ hks
  | cons x xs =>
    exact separated _ (expression x hxs.1 (operands closing false xs hxs.2 hks))

end

theorem simple (n : Node) (hn : n.Legible libs) (hks : AllWritten ks) :
    AllWritten (n.simpleLexemes spell ks) := by
  cases n with
  | varDecl m name t => exact ident hn.1 (symbol _ (type hn.2 hks))
  | varDef m name t x =>
    have hvalue := expression hspell x hn.2.2 hks
    exact ident hn.1 (symbol _ (type hn.2.1 (symbol _ hvalue)))
  | assign m name x => exact ident hn.1 (symbol _ (expression hspell x hn.2 hks))
  | fieldAssign m a xs x =>
    have hvalue := expression hspell x hn.2.2 hks
    exact ident hn.1 (symbol _ (ident hn.2.1 (symbol _ hvalue)))
  | listDecl m name k xs =>
    have helements := operands hspell .rbracket true xs hn.2.2 hks
    exact ident hn.1 (symbol _ (type hn.2.1 (symbol _ (symbol _ helements))))
  | graphDecl m name k => exact ident hn.1 (symbol _ (type hn.2 hks))
  | exprStmt m x => exact expression hspell x hn hks
  | _ => exact hks

theorem condition (n : Node) (hn : n.Legible libs) (hks : AllWritten ks) :
    AllWritten (n.conditionLexemes spell ks) :=
  symbol _ (expression hspell n hn (symbol _ hks))

mutual

theorem statement (n : Node) (hn : n.Legible libs) {ks : List Lexeme} (hks : AllWritten ks) :
    AllWritten (n.stmtLexemes spell ks) := by
  cases n with
  | ret m x =>
    cases x with
    | none => exact keyword _ (symbol _ hks)
    | some x => exact keyword _ (expression hspell x hn (symbol _ hks))
  | branch m merge test yes no =>
    cases no with
    | none =>
      exact keyword _ (condition hspell test hn.1 (symbol _ (statements yes hn.2 hks)))
    | some no =>
      have hno := statements no hn.2.2 hks
      have hyes := statements yes hn.2.1 (keyword .else_ (symbol .lbrace hno))
      exact keyword _ (condition hspell test hn.1 (symbol _ hyes))
  | whileLoop m merge test body =>
    exact keyword _ (condition hspell test hn.1 (symbol _ (statements body hn.2 hks)))
  | forLoop m merge init test step body =>
    obtain ⟨hinit, htest, hstep, hbody⟩ := hn
    have hbody := symbol .rparen (symbol .lbrace (statements body hbody hks))
    have htest := expression hspell test htest (symbol .semicolon (simple hspell step hstep hbody))
    exact keyword _ (symbol _ (simple hspell init hinit (symbol _ htest)))
  | print m x => exact keyword _ (condition hspell x hn (symbol _ hks))
  | _ => exact simple hspell _ hn (symbol _ hks)

theorem statements (ns : List Node) (hns : Node.AllLegible libs ns) {ks : List Lexeme}
    (hks : AllWritten ks) : AllWritten (Node.stmtsLexemes spell ns ks) := by
  cases ns with
  | nil => exact symbol _ hks
  | cons n rest => exact statement n hns.1 (statements rest hns.2 hks)

end

theorem item (n : Node) (hn : n.Legible libs) (hks : AllWritten ks) :
    AllWritten (n.itemLexemes spell ks) := by
  cases n with
  | includeLib m library => exact keyword _ (keyword _ (symbol _ hks))
  | classDecl m name fs => exact keyword _ (ident hn.1 (symbol _ (fields hn.2 hks)))
  | funcDef m name params result body =>
    obtain ⟨hname, hparams, hresult, hbody⟩ := hn
    have hbody := symbol .lbrace (statements hspell body hbody hks)
    have hparams := parameters true hparams (symbol .arrow (type hresult hbody))
    exact keyword _ (ident hname (symbol _ hparams))
  | _ => exact statement hspell _ hn hks

theorem items {ns : List Node} (hns : Node.ItemsLegible libs ns) :
    AllWritten (Node.itemsLexemes spell ns) := by
  induction ns generalizing libs with
  | nil => exact nil
  | cons n rest ih => exact item hspell n hns.2.1 (ih hns.2.2)

end AllWritten

/-- A program that can be written is written so that its lexemes are read back. -/
theorem Program.tokenize_render {spell : Double → Text} (hspell : Spelling spell) {p : Program}
    (hp : Node.ItemsLegible [] p.body) :
    ∃ ts stop, Lexer.tokenize (p.render spell) = .ok (ts, stop) ∧
      ts.map Token.lexeme = Node.itemsLexemes spell p.body := by
  have hgap : Lexer.IsGap " " := ⟨rfl, .nil⟩
  refine Lexer.tokens_laid (Lexer.laid_join hgap _) ?_ .nil .start
  rw [List.forall₂_map_left_iff, List.forall₂_same]
  exact AllWritten.items hspell hp

end Augite

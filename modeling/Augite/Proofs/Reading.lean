import Augite.Proofs.Grammar

/-!
# Reading

Whatever is read from a feed, with or without success, the feed reached is what remains of the
tokens behind some of them. Where reading succeeds, these tokens are a phrase of the grammar, and
the types in it stand where their library is included. That each reading comes to an end is in the
definitions, which recurse on what remains.
-/

namespace Augite

/-! ### What remains of a feed -/

/-- The second feed is what remains of the first one behind some of its tokens. -/
structure Feed.Precedes (s t : Feed) : Prop where
  rest : t.rest <:+ s.rest
  stop : t.stop = s.stop

/-- The second feed is what remains of the first one behind tokens that name no library but those
included. -/
structure Feed.Takes (s t : Feed) : Prop where
  taken : ∃ taken, s.rest = taken ++ t.rest ∧
    ∀ tok ∈ taken, ∀ l, Parse.library? tok.lexeme = some l → l ∈ s.included
  stop : t.stop = s.stop
  included : t.included = s.included

namespace Feed

variable {s t u : Feed}

theorem Precedes.refl (s : Feed) : s.Precedes s := ⟨List.suffix_rfl, rfl⟩

theorem Precedes.trans (h : s.Precedes t) (k : t.Precedes u) : s.Precedes u :=
  ⟨k.rest.trans h.rest, k.stop.trans h.stop⟩

/-- The feed behind the current token. -/
theorem Precedes.behind {tok : Token} {rest : List Token} (h : s.rest = tok :: rest) :
    s.Precedes (s.withRest rest) :=
  ⟨h ▸ List.suffix_cons tok rest, rfl⟩

theorem Takes.precedes (h : s.Takes t) : s.Precedes t := by
  obtain ⟨taken, htaken, -⟩ := h.taken
  exact ⟨⟨taken, htaken.symm⟩, h.stop⟩

theorem Takes.refl (s : Feed) : s.Takes s := ⟨⟨[], rfl, List.forall_mem_nil _⟩, rfl, rfl⟩

theorem Takes.trans (h : s.Takes t) (k : t.Takes u) : s.Takes u := by
  obtain ⟨taken, htaken, hfit⟩ := h.taken
  obtain ⟨taken', htaken', hfit'⟩ := k.taken
  refine ⟨⟨taken ++ taken', ?_, ?_⟩, k.stop.trans h.stop, k.included.trans h.included⟩
  · rw [htaken, htaken', List.append_assoc]
  · exact List.forall_mem_append.mpr ⟨hfit, h.included ▸ hfit'⟩

/-- A token is taken that names no library. -/
theorem Takes.token {tok : Token} {rest : List Token} (h : s.rest = tok :: rest)
    (hlib : Parse.library? tok.lexeme = none) : s.Takes (s.withRest rest) := by
  refine ⟨⟨[tok], h, List.forall_mem_singleton.mpr fun l hl => ?_⟩, rfl, rfl⟩
  rw [hlib] at hl
  cases hl

/-- A token is taken that names a library included. -/
theorem Takes.library {tok : Token} {rest : List Token} {l : Library} (h : s.rest = tok :: rest)
    (hlib : Parse.library? tok.lexeme = some l) (hl : l ∈ s.included) :
    s.Takes (s.withRest rest) := by
  refine ⟨⟨[tok], h, List.forall_mem_singleton.mpr fun k hk => ?_⟩, rfl, rfl⟩
  cases hlib.symm.trans hk
  exact hl

end Feed

namespace Outcome

variable {α β : Type} {m n : Nat} {s t : Feed} {R R' : α → Feed → Prop} {Q : β → Feed → Prop}

/-- Reading from a feed ends in what remains of it, and a success has a value and leaves a feed that
are in the relation `R`. -/
def Ends (s : Feed) (R : α → Feed → Prop) : Outcome α n → Prop
  | .ok a t _ => s.Precedes t ∧ R a t
  | .error _ t _ => s.Precedes t

/-- Reading from a feed takes tokens of it, and a success has a value and leaves a feed that are in
the relation `R`. -/
def Parses (s : Feed) (R : α → Feed → Prop) (o : Outcome α n) : Prop :=
  o.Ends s fun a t => s.Takes t ∧ R a t

theorem Ends.run {o : Outcome α n} (ho : o.Ends s R) : s.Precedes o.run.2 := by
  cases o with
  | ok a t h => exact ho.1
  | error e t h => exact ho

theorem Ends.imp {o : Outcome α n} (ho : o.Ends s R) (h : ∀ a t, R a t → R' a t) : o.Ends s R' := by
  cases o with
  | ok a t k => exact ⟨ho.1, h a t ho.2⟩
  | error e t k => exact ho

theorem Ends.lift {o : Outcome α m} (ho : o.Ends s R) (h : m ≤ n) : (o.lift h).Ends s R := by
  cases o <;> exact ho

theorem Ends.after {o : Outcome α n} (ho : o.Ends t R) (h : s.Precedes t) : o.Ends s R := by
  cases o with
  | ok a t k => exact ⟨h.trans ho.1, ho.2⟩
  | error e t k => exact h.trans ho

theorem Ends.bind {o : Outcome α n} {f : α → (t : Feed) → t.size < n → Outcome β n}
    (ho : o.Ends s R) (hf : ∀ a t h, R a t → (f a t h).Ends t Q) : (o.bind f).Ends s Q := by
  cases o with
  | ok a t h => exact (hf a t h ho.2).after ho.1
  | error e t h => exact ho

theorem Ends.andThen {o : Outcome α n} {f : α → (t : Feed) → t.size < n → Outcome β t.size}
    (ho : o.Ends s R) (hf : ∀ a t h, R a t → (f a t h).Ends t Q) : (o.andThen f).Ends s Q :=
  ho.bind fun a t h hR => (hf a t h hR).lift _

namespace Parses

theorem ok {a : α} {h : t.size < n} (hs : s.Takes t) (hR : R a t) :
    (Outcome.ok a t h : Outcome α n).Parses s R :=
  ⟨hs.precedes, hs, hR⟩

theorem imp {o : Outcome α n} (ho : o.Parses s R) (h : ∀ a t, R a t → R' a t) : o.Parses s R' :=
  Ends.imp ho fun a t hR => ⟨hR.1, h a t hR.2⟩

theorem lift {o : Outcome α m} (ho : o.Parses s R) (h : m ≤ n) : (o.lift h).Parses s R :=
  Ends.lift ho h

theorem after {o : Outcome α n} (ho : o.Parses t R) (h : s.Takes t) : o.Parses s R :=
  (Ends.after ho h.precedes).imp fun _ _ hR => ⟨h.trans hR.1, hR.2⟩

theorem bind {o : Outcome α n} {f : α → (t : Feed) → t.size < n → Outcome β n} (ho : o.Parses s R)
    (hf : ∀ a t h, R a t → (f a t h).Parses t Q) : (o.bind f).Parses s Q := by
  cases o with
  | ok a t h => exact (hf a t h ho.2.2).after ho.2.1
  | error e t h => exact ho

theorem andThen {o : Outcome α n} {f : α → (t : Feed) → t.size < n → Outcome β t.size}
    (ho : o.Parses s R) (hf : ∀ a t h, R a t → (f a t h).Parses t Q) : (o.andThen f).Parses s Q :=
  ho.bind fun a t h hR => (hf a t h hR).lift _

theorem map {o : Outcome α n} {f : α → β} (ho : o.Parses s R) (hf : ∀ a t, R a t → Q (f a) t) :
    (o.map f).Parses s Q :=
  ho.bind fun a t _ hR => .ok (.refl t) (hf a t hR)

end Parses

end Outcome

/-! ### Taking tokens -/

namespace Feed

variable {s : Feed}

theorem fail_parses {α : Type} {R : α → Feed → Prop} (s : Feed) (pos : Position)
    (cause : SyntaxCause) : (s.fail pos cause : Outcome α s.size).Parses s R :=
  Precedes.refl s

theorem take_parses {α : Type} (s : Feed) (wanted : Wanted) (accept : Token → Option α)
    {R : α → List Token → List Token → Prop}
    (h : ∀ tok rest a, accept tok = some a → Parse.library? tok.lexeme = none ∧
      R a (tok :: rest) rest) :
    (s.take wanted accept).Parses s fun a t => R a s.rest t.rest := by
  unfold take
  split
  · exact s.fail_parses _ _
  · rename_i tok rest hRest
    split
    · rename_i a ha
      obtain ⟨hlib, hR⟩ := h tok rest a ha
      exact .ok (.token hRest hlib) (hRest ▸ hR)
    · exact s.fail_parses _ _

theorem symbol_parses (s : Feed) (x : Symbol) :
    (s.symbol x).Parses s fun p t => s.rest = ⟨.symbol x, p⟩ :: t.rest := by
  refine s.take_parses (R := fun p s t => s = ⟨.symbol x, p⟩ :: t) _ _ fun tok rest p hp => ?_
  split at hp
  · rename_i hl
    cases hp
    exact ⟨hl ▸ rfl, hl ▸ rfl⟩
  · cases hp

theorem keyword_parses (s : Feed) {k : Keyword} (hk : Parse.library? (.keyword k) = none) :
    (s.keyword k).Parses s fun p t => s.rest = ⟨.keyword k, p⟩ :: t.rest := by
  refine s.take_parses (R := fun p s t => s = ⟨.keyword k, p⟩ :: t) _ _ fun tok rest p hp => ?_
  split at hp
  · rename_i hl
    cases hp
    exact ⟨hl ▸ hk, hl ▸ rfl⟩
  · cases hp

theorem ident_parses (s : Feed) :
    s.ident.Parses s fun a t => s.rest = ⟨.ident a.1, a.2⟩ :: t.rest := by
  refine s.take_parses (R := fun (a : Text × Position) s t => s = ⟨.ident a.1, a.2⟩ :: t) _ _ fun tok rest a ha => ?_
  split at ha
  · rename_i hl
    cases ha
    exact ⟨hl ▸ rfl, hl ▸ rfl⟩
  · cases ha

theorem notAt_of_not_atSymbol {x : Symbol} (h : ¬s.atSymbol x = true) :
    Grammar.NotAt (.symbol x) s.rest := by
  intro p rest hs
  apply h
  simp [atSymbol, cur, peek, hs]

end Feed

namespace Parse

open Grammar

/-- What reads neither name of a library takes no token that names one. -/
theorem library?_eq_none {α : Type} {f : Lexeme → Option α} {l : Lexeme} {a : α} (h : f l = some a)
    (hlist : f (.keyword .list_) = none) (hgraph : f (.keyword .graph_) = none) :
    library? l = none := by
  unfold library?
  split
  · rw [hlist] at h
    cases h
  · rw [hgraph] at h
    cases h
  · rfl

/-! ### Reading expressions and types -/

mutual

theorem climbing_parses (s : Feed) (least : Nat) :
    (climbing s least).Parses s fun n t => Expression s.rest n t.rest := by
  rw [climbing]
  exact (unary_parses s).bind fun left t h hl => climb_parses s.size least left t h hl
termination_by 6 * s.size + 3
decreasing_by all_goals omega

theorem climb_parses (n least : Nat) (left : Node) (t : Feed) (h : t.size < n) {s : List Token}
    (hl : Expression s left t.rest) :
    (climb n least left t h).Parses t fun n t => Expression s n t.rest := by
  rw [climb]
  split
  · exact .ok (.refl t) hl
  · rename_i tok rest hRest
    split
    · exact .ok (.refl t) hl
    · rename_i op level hop
      split
      · exact .ok (.refl t) hl
      · have hlt := Feed.size_withRest_lt hRest
        have hr := (climbing_parses (t.withRest rest) (level + 1)).after
          (.token hRest (library?_eq_none hop rfl rfl))
        simp only
        split
        · rename_i e u k heq
          rw [heq] at hr
          exact hr
        · rename_i right u k heq
          rw [heq] at hr
          rw [hRest] at hl
          exact (climb_parses n least _ u _ (.binary hop hl hr.2.2)).after hr.2.1
termination_by 6 * t.size
decreasing_by all_goals omega

theorem unary_parses (s : Feed) : (unary s).Parses s fun n t => Expression s.rest n t.rest := by
  rw [unary]
  split
  · exact s.fail_parses _ _
  · rename_i tok rest hRest
    have hlt := Feed.size_withRest_lt hRest
    simp only
    split
    · exact primary_parses s.size tok s hRest _
    · rename_i op hop
      simp only [hRest]
      refine .after (.lift ((unary_parses (s.withRest rest)).map fun x t hx => ?_) _)
        (.token hRest (library?_eq_none hop rfl rfl))
      exact .unary hop hx
termination_by 6 * s.size + 2
decreasing_by all_goals omega

/-- The token taken counts among those read. -/
theorem primary_parses (n : Nat) (tok : Token) (s : Feed) {rest : List Token}
    (hRest : s.rest = tok :: rest) (h : (s.withRest rest).size < n) :
    (primary n tok (s.withRest rest) h).Parses s fun x u => Expression s.rest x u.rest := by
  have hlt := Feed.size_withRest_lt hRest
  obtain ⟨l, p⟩ := tok
  rw [primary, hRest]
  split
  · rename_i node hn
    exact .ok (.token hRest (library?_eq_none hn rfl rfl)) (.literal hn)
  · split
    · rename_i hl
      simp only at hl
      subst hl
      refine .after (.lift (.andThen (climbing_parses _ 1) fun inner u _ hi => ?_) _)
        (.token hRest rfl)
      refine (u.symbol_parses .rparen).map fun q v hv => ?_
      rw [hv] at hi
      exact .group hi
    · rename_i name hname
      simp only at hname
      subst hname
      refine .after ?_ (.token hRest rfl)
      split
      · rename_i q rest' hParen
        have hargs := Feed.size_withRest_lt hParen
        change rest = _ at hParen
        subst hParen
        exact .after (.lift ((operands_parses _ .rparen true).map fun _ _ hxs => .call hxs) _)
          (.token rfl rfl)
      · rename_i q rest' hDot
        have hdot := Feed.size_withRest_lt hDot
        change rest = _ at hDot
        subst hDot
        refine .after (.lift (.bind (Feed.ident_parses _) fun a u hu ha => ?_) _) (.token rfl rfl)
        obtain ⟨member, r⟩ := a
        change rest' = ⟨.ident member, r⟩ :: u.rest at ha
        simp only [ha]
        split
        · rename_i o rest' hMember
          have hargs := Feed.size_withRest_lt hMember
          simp only [hMember]
          exact .after (.lift ((operands_parses _ .rparen true).map fun _ _ hxs =>
            .memberCall hxs) _) (.token hMember rfl)
        · exact .ok (.refl u) .member
      · exact .ok (.refl _) .var
    · exact Feed.Precedes.behind hRest
termination_by 6 * s.size + 1
decreasing_by all_goals omega

theorem operands_parses (s : Feed) (closing : Symbol) (first : Bool) :
    (operands s closing first).Parses s fun xs t => Operands closing first s.rest xs t.rest := by
  rw [operands]
  split
  · refine (s.symbol_parses closing).map fun p t hs => ?_
    rw [hs]
    exact .close
  · split
    · rename_i hfirst
      rw [hfirst]
      exact (climbing_parses s 1).andThen fun e t h he =>
        (operands_parses t closing false).map fun _ _ hxs => .first he hxs
    · rename_i hfirst
      rw [Bool.eq_false_iff.mpr hfirst]
      refine (s.symbol_parses .comma).andThen fun p t h hs => ?_
      rw [hs]
      exact (climbing_parses t 1).andThen fun e u h' he =>
        (operands_parses u closing false).map fun _ _ hxs => .next he hxs
termination_by 6 * s.size + 4
decreasing_by all_goals omega

end

theorem expression_parses (s : Feed) :
    (expression s).Parses s fun n t => Expression s.rest n t.rest :=
  climbing_parses s 1

mutual

theorem typeName_parses (s : Feed) (allowVoid : Bool) :
    (typeName s allowVoid).Parses s fun ty t => TypeName allowVoid s.rest ty t.rest := by
  rw [typeName]
  split
  · exact s.fail_parses _ _
  · rename_i tok rest hRest
    exact typeAfter_parses s.size tok s hRest _ allowVoid
termination_by 2 * s.size + 1
decreasing_by all_goals omega

theorem typeAfter_parses (n : Nat) (tok : Token) (s : Feed) {rest : List Token}
    (hRest : s.rest = tok :: rest) (h : (s.withRest rest).size < n) (allowVoid : Bool) :
    (typeAfter n tok (s.withRest rest) h allowVoid).Parses s
      fun ty u => TypeName allowVoid s.rest ty u.rest := by
  have hlt := Feed.size_withRest_lt hRest
  obtain ⟨l, p⟩ := tok
  rw [typeAfter, hRest]
  split
  · rename_i ty hty
    exact .ok (.token hRest (library?_eq_none hty rfl rfl)) (.scalar hty)
  · split
    · rename_i library hlibrary
      split
      · rename_i hincluded
        refine .after ?_ (.library hRest hlibrary (List.contains_iff_mem.mp hincluded))
        refine .lift (.andThen (Feed.symbol_parses _ .lt) fun q u _ ht => ?_) _
        change rest = _ at ht
        rw [ht]
        refine (typeName_parses u false).andThen fun elem v _ hv => ?_
        split
        · rename_i hscalar
          refine (v.symbol_parses .gt).map fun r w hw => ?_
          rw [hw] at hv
          exact .container hlibrary hv hscalar
        · exact v.fail_parses _ _
      · exact Feed.Precedes.behind hRest
    · rename_i hlib
      split
      · rename_i name hname
        simp only at hname
        subst hname
        exact .ok (.token hRest rfl) .class_
      · rename_i hvoid
        simp only at hvoid
        subst hvoid
        split
        · rename_i hallow
          rw [hallow]
          exact .ok (.token hRest rfl) .void
        · exact Feed.Precedes.behind hRest
      · exact Feed.Precedes.behind hRest
termination_by 2 * s.size
decreasing_by all_goals omega

end

/-! ### Reading statements -/

theorem isScalar_of_scalarType? {l : Lexeme} {ty : Ty} (h : scalarType? l = some ty) :
    ty.kind.isScalar = true := by
  cases l with
  | keyword k => cases k <;> cases h <;> rfl
  | _ => cases h

theorem containerOf_eq (library : Library) (k : Kind) :
    containerOf library k = .listOf (containerOf library k).elem ∨
      containerOf library k = .graphOf (containerOf library k).elem := by
  cases library with
  | list => exact .inl rfl
  | graph => exact .inr rfl

/-- The kinds of types that can be declared. -/
theorem kind_of_typeName {s t : List Token} {ty : Ty} (h : TypeName false s ty t) :
    ty.kind.isScalar = true ∨ ty.kind = .class_ ∨ ty = .listOf ty.elem ∨ ty = .graphOf ty.elem := by
  cases h with
  | scalar hl => exact .inl (isScalar_of_scalarType? hl)
  | container => exact .inr (.inr (containerOf_eq _ _))
  | class_ => exact .inr (.inl rfl)

theorem listInitializer_parses (t : Feed) :
    (listInitializer t).Parses t fun xs u => ∃ p q v,
      t.rest = ⟨.symbol .assign, p⟩ :: ⟨.symbol .lbracket, q⟩ :: v ∧
        Operands .rbracket true v xs u.rest := by
  refine (t.symbol_parses .assign).andThen fun p u _ hu => ?_
  split
  · refine (u.symbol_parses .lbracket).andThen fun q v _ hv => ?_
    have hrest := hv ▸ hu
    exact (operands_parses v .rbracket true).imp fun xs w hxs => ⟨p, q, v.rest, hrest, hxs⟩
  · exact u.fail_parses _ _

theorem scalarInitializer_parses (t : Feed) (ty : Ty) :
    (scalarInitializer t ty).Parses t fun x u => ∃ p v,
      t.rest = ⟨.symbol .assign, p⟩ :: v ∧ Expression v x u.rest := by
  refine (t.symbol_parses .assign).andThen fun p u _ hu => ?_
  split
  · exact u.fail_parses _ _
  · exact (expression_parses u).imp fun x v hx => ⟨p, u.rest, hu, hx⟩

theorem declared_parses (n : Nat) (p q : Position) (name : Text) (typePos : Position) {ty : Ty}
    (t : Feed) (h : t.size < n) {s : List Token} (hty : TypeName false s ty t.rest) :
    (declared n p name typePos ty t h).Parses t
      fun x u => Simple (⟨.ident name, p⟩ :: ⟨.symbol .colon, q⟩ :: s) x u.rest := by
  have hkind := kind_of_typeName hty
  unfold declared
  simp only
  split
  · rename_i hlist
    obtain hscalar | hclass | hty' | hty' := hkind
    · rw [hlist] at hscalar
      cases hscalar
    · rw [hlist] at hclass
      cases hclass
    · rw [hty'] at hty
      split
      · refine .lift (.map (listInitializer_parses t) ?_) _
        rintro xs u ⟨r, o, v, hv, hxs⟩
        rw [hv] at hty
        exact .list hty hxs
      · rename_i hno
        exact .ok (.refl t) (.emptyList hty (Feed.notAt_of_not_atSymbol hno))
    · rw [hty'] at hlist
      cases hlist
  · rename_i hgraph
    obtain hscalar | hclass | hty' | hty' := hkind
    · rw [hgraph] at hscalar
      cases hscalar
    · rw [hgraph] at hclass
      cases hclass
    · rw [hty'] at hgraph
      cases hgraph
    · rw [hty'] at hty
      split
      · exact (t.fail_parses _ _).lift _
      · rename_i hno
        exact .ok (.refl t) (.graph hty (Feed.notAt_of_not_atSymbol hno))
  · rename_i hclass
    split
    · exact (t.fail_parses _ _).lift _
    · rename_i hno
      exact .ok (.refl t) (.declare hty (.inr hclass) (Feed.notAt_of_not_atSymbol hno))
  · rename_i hlist hgraph hclass
    have hscalar : ty.kind.isScalar = true := by
      obtain hscalar | hclass' | hty' | hty' := hkind
      · exact hscalar
      · exact absurd hclass' hclass
      · exact absurd (congrArg Ty.kind hty') hlist
      · exact absurd (congrArg Ty.kind hty') hgraph
    split
    · refine .lift (.map (scalarInitializer_parses t ty) ?_) _
      rintro x u ⟨r, v, hv, hx⟩
      rw [hv] at hty
      exact .define hty hscalar hx
    · rename_i hno
      exact .ok (.refl t) (.declare hty (.inl hscalar) (Feed.notAt_of_not_atSymbol hno))

theorem declaration_parses (s : Feed) :
    (declaration s).Parses s fun n t => Simple s.rest n t.rest := by
  refine s.ident_parses.andThen fun ⟨name, p⟩ t _ hs => ?_
  refine (t.symbol_parses .colon).andThen fun q u _ ht => ?_
  rw [hs, ht]
  exact (typeName_parses u false).bind fun ty v h hty =>
    declared_parses u.size p q name u.cur.pos v h hty

theorem simple_parses (s : Feed) : (simple s).Parses s fun n t => Simple s.rest n t.rest := by
  unfold simple
  split
  · exact declaration_parses s
  · rename_i name pos p rest hRest
    simp only [hRest]
    exact .after (.lift ((expression_parses (s.withRest rest)).map fun x t hx => .assign hx) _)
      (.trans (.token hRest rfl) (.token rfl rfl))
  · rename_i name pos p member q r rest hRest
    simp only [hRest]
    exact .after (.lift ((expression_parses (s.withRest rest)).map fun x t hx => .assignField hx) _)
      (.trans (.token hRest rfl) (.trans (.token rfl rfl) (.trans (.token rfl rfl) (.token rfl rfl))))
  · refine (expression_parses s).bind fun x t h hx => ?_
    rcases hs : s.rest with _ | ⟨⟨l, p⟩, rest⟩
    · simp [Feed.size, hs] at h
    · rw [hs] at hx
      simp only [Feed.cur, Feed.peek, hs]
      exact .ok (.refl t) (.expression hx)

theorem condition_parses (s : Feed) :
    (condition s).Parses s fun x t => Condition s.rest x t.rest := by
  refine (s.symbol_parses .lparen).andThen fun p t _ hs => ?_
  refine (expression_parses t).andThen fun x u _ hx => ?_
  refine (u.symbol_parses .rparen).map fun q v hu => ?_
  rw [hu] at hx
  rw [hs]
  exact .mk hx

theorem simpleStatement_parses (s : Feed) :
    (simpleStatement s).Parses s fun n t => Statement s.rest n t.rest := by
  refine (simple_parses s).andThen fun n t _ hn => ?_
  refine (t.symbol_parses .semicolon).map fun p u ht => ?_
  rw [ht] at hn
  exact .simple hn

theorem returned_parses (s : Feed) (p : Position) :
    (returned s).Parses s fun value t =>
      Statement (⟨.keyword .return_, p⟩ :: s.rest) (.ret (.at_ p) value) t.rest := by
  unfold returned
  split
  · refine (s.symbol_parses .semicolon).map fun q t hs => ?_
    rw [hs]
    exact .return_
  · refine (expression_parses s).andThen fun x t _ hx => ?_
    refine (t.symbol_parses .semicolon).map fun q u ht => ?_
    rw [ht] at hx
    exact .returnValue hx

theorem printed_parses (s : Feed) (p : Position) :
    (printed s).Parses s fun x t =>
      Statement (⟨.keyword .print_, p⟩ :: s.rest) (.print (.at_ p) x) t.rest := by
  refine (condition_parses s).andThen fun x t _ hx => ?_
  refine (t.symbol_parses .semicolon).map fun q u ht => ?_
  rw [ht] at hx
  exact .print hx

theorem forHead_parses (s : Feed) (p : Position) :
    (forHead s).Parses s fun head t => ∀ {body u}, Block t.rest body u →
      Statement (⟨.keyword .for_, p⟩ :: s.rest)
        (.forLoop (.at_ p) none head.1 head.2.1 head.2.2 body) u := by
  refine (s.symbol_parses .lparen).andThen fun q t _ hs => ?_
  refine (simple_parses t).andThen fun init t _ hinit => ?_
  refine (t.symbol_parses .semicolon).andThen fun r u _ ht => ?_
  refine (expression_parses u).andThen fun test u _ htest => ?_
  refine (u.symbol_parses .semicolon).andThen fun o v _ hu => ?_
  refine (simple_parses v).andThen fun step v _ hstep => ?_
  refine (v.symbol_parses .rparen).map fun o' w hv body _ hbody => ?_
  rw [ht] at hinit
  rw [hu] at htest
  rw [hv] at hstep
  rw [hs]
  exact .for_ hinit htest hstep hbody

mutual

theorem statement_parses (s : Feed) :
    (statement s).Parses s fun n t => Statement s.rest n t.rest := by
  rw [statement]
  split
  · exact simpleStatement_parses s
  · rename_i tok rest hRest
    have hlt := Feed.size_withRest_lt hRest
    obtain ⟨l, p⟩ := tok
    simp only
    split
    · exact s.fail_parses _ _
    · exact s.fail_parses _ _
    · exact s.fail_parses _ _
    · simp only [hRest]
      exact .after (.lift ((returned_parses (s.withRest rest) p).map fun _ _ h => h) _)
        (.token hRest rfl)
    · simp only [hRest]
      exact .after (.lift (branch_parses p (s.withRest rest)) _) (.token hRest rfl)
    · simp only [hRest]
      refine .after (.lift (.andThen (condition_parses _) fun test t h htest => ?_) _)
        (.token hRest rfl)
      exact (block_parses t).map fun body u hbody => .while_ htest hbody
    · simp only [hRest]
      refine .after (.lift (.andThen (forHead_parses _ p) fun head t h hhead => ?_) _)
        (.token hRest rfl)
      exact (block_parses t).map fun body u hbody => hhead hbody
    · simp only [hRest]
      exact .after (.lift ((printed_parses (s.withRest rest) p).map fun _ _ h => h) _)
        (.token hRest rfl)
    · exact simpleStatement_parses s
termination_by 3 * s.size
decreasing_by all_goals omega

theorem branch_parses (pos : Position) (s : Feed) :
    (branch pos s).Parses s fun n t => Statement (⟨.keyword .if_, pos⟩ :: s.rest) n t.rest := by
  rw [branch]
  refine (condition_parses s).andThen fun test t h htest => ?_
  refine (block_parses t).bind fun yes u hu hyes => ?_
  split
  · rename_i q rest hElse
    have hlt := Feed.size_withRest_lt hElse
    rw [hElse] at hyes
    simp only
    split
    · rename_i at_ rest' hIf
      have hlt' := Feed.size_withRest_lt hIf
      refine .after (.lift (.map (branch_parses at_ _) fun other v hother => ?_) _)
        (.trans (.token hElse rfl) (.token hIf rfl))
      change rest = _ at hIf
      rw [hIf] at hyes
      exact .ifElseIf htest hyes hother
    · exact .after (.lift ((block_parses _).map fun no v hno => .ifElse htest hyes hno) _)
        (.token hElse rfl)
  · rename_i hno
    exact .ok (.refl u) (.if_ htest hyes fun p rest h => hno p rest h)
termination_by 3 * s.size
decreasing_by all_goals omega

theorem block_parses (s : Feed) : (block s).Parses s fun ns t => Block s.rest ns t.rest := by
  rw [block]
  refine (s.symbol_parses .lbrace).andThen fun p t h hs => ?_
  rw [hs]
  exact (statements_parses t).imp fun ns u hns => .mk hns
termination_by 3 * s.size
decreasing_by all_goals omega

theorem statements_parses (s : Feed) :
    (statements s).Parses s fun ns t => Statements s.rest ns t.rest := by
  rw [statements]
  split
  · exact s.fail_parses _ _
  · rename_i hRest
    simp only [hRest]
    exact .ok (.token hRest rfl) .close
  · refine (statement_parses s).andThen fun n t h hn => ?_
    exact (statements_parses t).map fun ns u hns => .cons hn hns
termination_by 3 * s.size + 1
decreasing_by all_goals omega

end

/-! ### Reading programs -/

/-- A binding and what follows it. -/
theorem binding_parses {α : Type} (s : Feed) {R : α → Feed → Prop}
    (f : Param → (t : Feed) → Outcome α t.size)
    (hf : ∀ b t, t.size < s.size → Binding s.rest b t.rest → (f b t).Parses t R) :
    (s.ident.andThen fun (name, pos) t _ =>
      (t.symbol .colon).andThen fun _ u _ =>
        (typeName u false).andThen fun type v _ => f { pos, name, type } v).Parses s R := by
  refine s.ident_parses.andThen fun ⟨name, p⟩ t ht hs => ?_
  refine (t.symbol_parses .colon).andThen fun q u hu hcolon => ?_
  refine (typeName_parses u false).andThen fun type v hv htype => ?_
  refine hf { pos := p, name, type } v (by omega) ?_
  rw [hs, hcolon]
  exact .mk htype

theorem parameters_parses (s : Feed) (first : Bool) :
    (parameters s first).Parses s fun bs t => Parameters first s.rest bs t.rest := by
  rw [parameters]
  split
  · refine (s.symbol_parses .rparen).map fun p t hs => ?_
    rw [hs]
    exact .close
  · split
    · rename_i hfirst
      rw [hfirst]
      exact binding_parses s (fun b t => (parameters t false).map (b :: ·)) fun b t hlt hb =>
        (parameters_parses t false).map fun bs u hbs => .first hb hbs
    · rename_i hfirst
      rw [Bool.eq_false_iff.mpr hfirst]
      refine (s.symbol_parses .comma).andThen fun p s' h hs => ?_
      rw [hs]
      exact binding_parses s' (fun b t => (parameters t false).map (b :: ·)) fun b t hlt hb =>
        (parameters_parses t false).map fun bs u hbs => .next hb hbs
termination_by s.size
decreasing_by all_goals omega

theorem fields_parses (s : Feed) :
    (fields s).Parses s fun bs t => Fields s.rest bs t.rest := by
  rw [fields]
  split
  · refine (s.symbol_parses .rbrace).map fun p t hs => ?_
    rw [hs]
    exact .close
  · refine binding_parses s (fun b t => (t.symbol .semicolon).andThen fun _ u _ =>
      (fields u).map (b :: ·)) fun b t hlt hb => ?_
    refine (t.symbol_parses .semicolon).andThen fun p u hu ht => ?_
    rw [ht] at hb
    exact (fields_parses u).map fun bs v hbs => .cons hb hbs
termination_by s.size
decreasing_by all_goals omega

theorem resultType_parses (n : Nat) (s : Feed) (h : s.size < n) :
    (resultType n s h).Parses s fun ty t => Result s.rest ty t.rest := by
  unfold resultType
  split
  · refine .lift (.andThen (s.symbol_parses .arrow) fun p t _ hs => ?_) _
    rw [hs]
    exact (typeName_parses t true).imp fun ty u hty => .arrow hty
  · rename_i hno
    exact .ok (.refl s) (.none (Feed.notAt_of_not_atSymbol hno))

theorem function_parses (s : Feed) : (function s).Parses s fun n t => Item s.rest n t.rest := by
  refine (s.keyword_parses rfl).andThen fun p t _ hs => ?_
  refine t.ident_parses.andThen fun ⟨name, q⟩ u _ ht => ?_
  refine (u.symbol_parses .lparen).andThen fun r v _ hu => ?_
  have hhead : ((parameters v true).bind fun params t h =>
      (resultType v.size t h).map fun result => (params, result)).Parses v fun head u =>
        ∃ w, Parameters true v.rest head.1 w ∧ Result w head.2 u.rest :=
    (parameters_parses v true).bind fun params w h hparams =>
      (resultType_parses v.size w h).map fun result x hresult => ⟨w.rest, hparams, hresult⟩
  refine hhead.andThen fun head w _ hw => ?_
  obtain ⟨x, hparams, hresult⟩ := hw
  refine (block_parses w).map fun body y hbody => ?_
  rw [hs, ht, hu]
  exact .function hparams hresult hbody

theorem classDeclaration_parses (s : Feed) :
    (classDeclaration s).Parses s fun n t => Item s.rest n t.rest := by
  refine (s.keyword_parses rfl).andThen fun p t _ hs => ?_
  refine t.ident_parses.andThen fun ⟨name, q⟩ u _ ht => ?_
  refine (u.symbol_parses .lbrace).andThen fun r v _ hu => ?_
  refine (fields_parses v).map fun bs w hbs => ?_
  rw [hs, ht, hu]
  exact .class_ hbs

/-- An item takes fit tokens only, unless it includes a library. -/
def ItemRead (s : Feed) (n : Node) (t : Feed) : Prop :=
  Item s.rest n t.rest ∧ ((NotAt (.keyword .include_) s.rest ∧ s.Takes t) ∨
    ∃ m l, n = .includeLib m (Library.name l) ∧ t.included = l :: s.included)

theorem libraryName_ends (s : Feed) : (libraryName s).Ends s fun library t =>
    (∃ l q, library? l = some library ∧ s.rest = ⟨l, q⟩ :: t.rest) ∧ t.included = s.included := by
  unfold libraryName
  split
  · exact Feed.Precedes.refl s
  · rename_i tok rest hRest
    split
    · rename_i library hlibrary
      exact ⟨.behind hRest, ⟨tok.lexeme, tok.pos, hlibrary, hRest⟩, rfl⟩
    · exact Feed.Precedes.refl s

theorem inclusion_ends (s : Feed) : (inclusion s).Ends s (ItemRead s) := by
  refine Outcome.Ends.andThen (s.keyword_parses rfl) fun p t _ ⟨htake, hs⟩ => ?_
  refine (libraryName_ends t).andThen fun library u _ ⟨⟨l, q, hlibrary, hu⟩, hincluded⟩ => ?_
  refine Outcome.Ends.bind (u.symbol_parses .semicolon) fun r v hv ⟨htake', hsemi⟩ => ?_
  refine ⟨⟨List.suffix_rfl, rfl⟩, ?_, .inr ⟨_, library, rfl, ?_⟩⟩
  · rw [hs, hu, hsemi]
    exact .include_ hlibrary
  · exact congrArg (library :: ·) (htake'.included.trans (hincluded.trans htake.included))

theorem item_ends (s : Feed) : (item s).Ends s (ItemRead s) := by
  have hno (h : s.cur.lexeme ≠ .keyword .include_) : NotAt (.keyword .include_) s.rest := by
    intro p rest hs
    apply h
    simp [Feed.cur, Feed.peek, hs]
  unfold item
  split
  · exact inclusion_ends s
  · rename_i hcur
    exact Outcome.Ends.imp (function_parses s) fun n t hn =>
      ⟨hn.2, .inl ⟨hno (by simp [hcur]), hn.1⟩⟩
  · rename_i hcur
    exact Outcome.Ends.imp (classDeclaration_parses s) fun n t hn =>
      ⟨hn.2, .inl ⟨hno (by simp [hcur]), hn.1⟩⟩
  · rename_i hcur _ _
    exact Outcome.Ends.imp (statement_parses s) fun n t hn => ⟨.statement hn.2, .inl ⟨hno hcur, hn.1⟩⟩

/-- An item of tokens as sources have them can be written, where the libraries are included. -/
theorem ItemRead.legible {s t : Feed} {n : Node} (h : ItemRead s n t)
    (hread : ∀ tok ∈ s.rest, tok.lexeme.IsRead) :
    n.IsItem ∧ n.Legible s.included ∧ n.includes s.included = t.included := by
  obtain ⟨hitem, ⟨hno, htakes⟩ | ⟨m, l, rfl, hincluded⟩⟩ := h
  · obtain ⟨taken, htaken, hlibraries⟩ := htakes.taken
    have hassures : Assures s.included s.rest t.rest _ := hitem.good hno
    obtain ⟨taken', htaken', hgood⟩ := hassures
    obtain rfl : taken' = taken := List.append_cancel_right (htaken'.symm.trans htaken)
    rw [htakes.included]
    refine hgood fun tok htok => ⟨hread tok ?_, hlibraries tok htok⟩
    rw [htaken]
    exact List.mem_append_left _ htok
  · exact ⟨trivial, ⟨l, rfl⟩, (includes_name m l).trans hincluded.symm⟩

/-- The items of a feed are read to its end, or to where one of them fails. -/
theorem items_parses (s : Feed) : s.Precedes (items s).2 ∧ ∀ ns, (items s).1 = .ok ns →
    (items s).2.rest = [] ∧ Items s.rest ns ∧
      ((∀ tok ∈ s.rest, tok.lexeme.IsRead) → Node.ItemsLegible s.included ns) := by
  rw [items]
  split
  · rename_i hempty
    have hnil := List.isEmpty_iff.mp hempty
    refine ⟨.refl s, fun ns hns => ?_⟩
    cases hns
    rw [hnil]
    exact ⟨rfl, .nil, fun _ => trivial⟩
  · have hitem := item_ends s
    split
    · rename_i e t h heq
      rw [heq] at hitem
      refine ⟨hitem, fun ns hns => ?_⟩
      cases hns
    · rename_i n t h heq
      rw [heq] at hitem
      obtain ⟨hprecedes, hitem⟩ := hitem
      obtain ⟨hrest, hend⟩ := items_parses t
      refine ⟨hprecedes.trans hrest, fun ns hns => ?_⟩
      rcases hr : (items t).1 with e | rest
      · simp only [hr, Except.map] at hns
        cases hns
      · simp only [hr, Except.map] at hns
        cases hns
        obtain ⟨hnil, hitems, hlegible⟩ := hend rest hr
        refine ⟨hnil, .cons hitem.1 hitems, fun hread => ?_⟩
        obtain ⟨hisItem, hn, hincludes⟩ := hitem.legible hread
        refine ⟨hisItem, hn, hincludes ▸ hlegible fun tok htok => ?_⟩
        exact hread tok (hprecedes.rest.subset htok)
termination_by s.size
decreasing_by all_goals omega

end Parse

end Augite

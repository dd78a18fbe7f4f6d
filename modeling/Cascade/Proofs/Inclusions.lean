import Cascade.Proofs.BodyEnds
import Cascade.Proofs.BracketDepth
import Cascade.Proofs.Composition
import Cascade.Proofs.Instantiation
import Cascade.Proofs.ValuesInPlace

/-!
# Definitions and inclusions of mixins

What reading does at the definition of a mixin without parameters, at an inclusion of
it and at the head of a rule, where brackets match and no dollar sign stands before a
name.

**Method.**  `Leaves x r a rest scopes` says what a computation leaves, unless it is cut
short by the budget or by a limit.  Within the definition and the head of the rule
reading only groups tokens (`Proofs.Grouping`).

**Results.**
* `leaves_nextRule_mixin`: the definition binds the groups of its body.
* `takes_nextRule_head`: the head of a rule is read up to its flat block.
* `takes_inclusion`: an inclusion puts the body in front.
-/

namespace Cascade

/-! ## Balanced tokens -/

instance (t : Token) : Decidable t.IsSingle :=
  decidable_of_iff (t.type.closer? = none ∧ t.type.isCloser = false ∧ t.type ≠ .eof)
    ⟨fun ⟨hopens, hcloses, hends⟩ => ⟨hopens, hcloses, hends⟩, fun h => ⟨h.opens, h.closes, h.ends⟩⟩

instance (m : String) (t : Token) : Decidable (t.Clean m) :=
  inferInstanceAs (Decidable (_ → _))

section BracketBalanced

variable {ts us : List Token}

theorem BracketBalanced.of_single (h : ∀ t ∈ ts, t.IsSingle) :
    BracketBalanced ts := by
  induction ts with
  | nil => exact .nil
  | cons t ts ih =>
      obtain ⟨ht, hts⟩ := List.forall_mem_cons.mp h
      exact .single ht (ih hts)

theorem BracketBalanced.append (hts : BracketBalanced ts) (hus : BracketBalanced us) :
    BracketBalanced (ts ++ us) := by
  induction hts with
  | nil => exact hus
  | single ht _ ih => exact .single ht ih
  | @group opener closer inner ts hcloser hinner _ _ ih =>
      rw [List.cons_append, List.append_assoc, List.cons_append]
      exact .group hcloser hinner ih

theorem BracketBalanced.ne_eof (h : BracketBalanced ts) :
    ∀ t ∈ ts, t.type ≠ .eof := by
  induction h with
  | nil => exact List.forall_mem_nil _
  | single ht _ ih => exact List.forall_mem_cons.mpr ⟨ht.ends, ih⟩
  | @group opener closer inner ts hcloser _ _ ihinner ih =>
      have hopener : opener.type ≠ .eof := by
        intro htype
        rw [htype] at hcloser
        cases hcloser
      have hend : closer.type ≠ .eof := by
        intro htype
        have hcloses := TokenType.isCloser_of_closer? hcloser
        rw [htype] at hcloses
        cases hcloses
      refine List.forall_mem_cons.mpr ⟨hopener, fun t ht => ?_⟩
      rcases List.mem_append.mp ht with ht | ht
      · exact ihinner t ht
      · rcases List.mem_cons.mp ht with rfl | ht
        · exact hend
        · exact ih t ht

theorem valuesOf_of_balanced (h : BracketBalanced ts) :
    valuesOf ts = ts.map .token := by
  have hkeep : ts.filter (fun t => t.type != .eof) = ts :=
    List.filter_eq_self.mpr fun t ht => by simpa using h.ne_eof t ht
  rw [valuesOf, hkeep]

end BracketBalanced

/-! ## Grouped values -/

section Grouped

variable {ts : List Token} {vs : List Value}

/-- Values are made as the tokens are that they are grouped from. -/
theorem Grouped.made {p q : Token → Prop} (h : Grouped ts vs) (hp : ∀ t ∈ ts, t.IsSingle → p t)
    (hq : ∀ t ∈ ts, t.type = .function → q t) :
    ∀ v ∈ vs, v.Made p q := by
  induction h with
  | nil => exact List.forall_mem_nil _
  | @single t ts vs ht _ _ ih =>
      have hrest := ih (fun u hu => hp u (by simp [hu])) fun u hu => hq u (by simp [hu])
      exact List.forall_mem_cons.mpr ⟨.token (hp t (by simp) ht), hrest⟩
  | @block opener closer inner ts us vs _ _ _ ihinner ih =>
      have hinside := ihinner (fun u hu => hp u (by simp [hu])) fun u hu => hq u (by simp [hu])
      have hrest := ih (fun u hu => hp u (by simp [hu])) fun u hu => hq u (by simp [hu])
      exact List.forall_mem_cons.mpr ⟨.block hinside, hrest⟩
  | @call name closer inner ts us vs hname _ _ _ ihinner ih =>
      have hinside := ihinner (fun u hu => hp u (by simp [hu])) fun u hu => hq u (by simp [hu])
      have hrest := ih (fun u hu => hp u (by simp [hu])) fun u hu => hq u (by simp [hu])
      obtain ⟨args, commas, hcall, hflat⟩ := exists_callOf name us closer
      refine List.forall_mem_cons.mpr ⟨?_, hrest⟩
      rw [hcall]
      refine .call (hq name (by simp) hname) fun arg harg v hv => hinside v ?_
      rw [← hflat]
      exact mem_flattenArguments_of_mem harg hv

/-- Tokens that open no group are values of their own. -/
theorem Grouped.eq_map (h : Grouped ts vs) (hts : ∀ t ∈ ts, t.type.closer? = none) :
    vs = ts.map .token := by
  induction h with
  | nil => rfl
  | single _ _ _ ih => rw [List.map_cons, ih fun u hu => hts u (List.mem_cons_of_mem _ hu)]
  | block hpartner _ _ _ _ =>
      have hopens := hts _ List.mem_cons_self
      rw [TokenType.closer?_of_partner? hpartner] at hopens
      cases hopens
  | call hname _ _ _ _ _ =>
      have hopens := hts _ List.mem_cons_self
      rw [hname] at hopens
      cases hopens

/-- Tokens that open neither a group nor a variable, in front of other ones. -/
theorem Grouped.tokens_append (ts : List Token) (hts : ∀ t ∈ ts, t.IsSingle ∧ t.isDelim "$" = false)
    {us : List Token} (h : Grouped us vs) :
    Grouped (ts ++ us) (ts.map .token ++ vs) := by
  induction ts with
  | nil => exact h
  | cons t ts ih =>
      obtain ⟨⟨hsingle, hdollar⟩, hts⟩ := List.forall_mem_cons.mp hts
      refine .single hsingle (fun hsign => ?_) (ih hts)
      rw [hdollar] at hsign
      cases hsign

/-- No group is open where only tokens follow that close none. -/
theorem Grouped.exists_of_append {us : List Token} (h : Grouped (ts ++ us) vs)
    (hus : ∀ t ∈ us, t.type.isCloser = false) :
    ∃ front behind, vs = front ++ behind ∧ Grouped ts front ∧ Grouped us behind := by
  generalize hwhole : ts ++ us = whole at h
  have hcut {ts : List Token} {opener closer : Token} {inner rest : List Token}
      (hcloser : closer.type.isCloser = true) (hwhole : ts ++ us = opener :: (inner ++ closer :: rest)) :
      ∃ front, ts = opener :: (inner ++ closer :: front) ∧ front ++ us = rest := by
    have hclosed : closer ∉ us := by
      intro hmem
      rw [hus closer hmem] at hcloser
      cases hcloser
    rcases List.append_eq_append_iff.mp (show ts ++ us = (opener :: inner) ++ (closer :: rest) from hwhole)
      with ⟨extra, _, rfl⟩ | ⟨extra, rfl, hrest⟩
    · exact (hclosed (by simp)).elim
    · cases extra with
      | nil =>
          rw [List.nil_append] at hrest
          exact (hclosed (by simp [← hrest])).elim
      | cons t extra =>
          obtain ⟨rfl, rfl⟩ := List.cons.inj hrest
          exact ⟨extra, by simp, rfl⟩
  induction h generalizing ts with
  | nil =>
      obtain ⟨rfl, rfl⟩ := List.append_eq_nil_iff.mp hwhole
      exact ⟨[], [], rfl, .nil, .nil⟩
  | @single t rest ws ht hvar hrest ih =>
      cases ts with
      | nil =>
          subst hwhole
          exact ⟨[], _, rfl, .nil, .single ht hvar hrest⟩
      | cons w ts =>
          rw [List.cons_append, List.cons.injEq] at hwhole
          obtain ⟨rfl, hsplit⟩ := hwhole
          obtain ⟨front, behind, rfl, hfront, hbehind⟩ := ih hsplit
          refine ⟨.token w :: front, behind, rfl, .single ht (fun hdollar u hu => hvar hdollar u ?_) hfront,
            hbehind⟩
          rw [← hsplit, List.head?_append, hu]
          rfl
  | block hpartner hinner _ _ ih =>
      obtain ⟨rest, rfl, hrest⟩ := hcut (TokenType.isCloser_of_partner? hpartner) hwhole
      obtain ⟨front, behind, rfl, hfront, hbehind⟩ := ih hrest
      exact ⟨_, behind, rfl, .block hpartner hinner hfront, hbehind⟩
  | call hname hparen hinner _ _ ih =>
      obtain ⟨rest, rfl, hrest⟩ := hcut (by rw [hparen]; rfl) hwhole
      obtain ⟨front, behind, rfl, hfront, hbehind⟩ := ih hrest
      exact ⟨_, behind, rfl, .call hname hparen hinner hfront, hbehind⟩

end Grouped

/-! ## Instances without parameters -/

mutual

/-- Where nothing is bound, a value stays as it is. -/
theorem Value.instantiate_nil :
    ∀ v : Value, v.instantiate [] = [v]
  | .token t => by rw [Value.instantiate]
  | .reference dollar name => by
      rw [Value.instantiate]
      rfl
  | .block opener contents closer => by rw [Value.instantiate, instantiateAll_nil contents]
  | .call name args commas closer => by rw [Value.instantiate, instantiateArguments_nil args]

theorem instantiateAll_nil :
    ∀ vs : List Value, instantiateAll [] vs = vs
  | [] => by rw [instantiateAll]
  | v :: vs => by rw [instantiateAll, v.instantiate_nil, instantiateAll_nil vs, List.singleton_append]

theorem instantiateArguments_nil :
    ∀ args : List (List Value), instantiateArguments [] args = args
  | [] => by rw [instantiateArguments]
  | arg :: args => by
      rw [instantiateArguments, instantiateAll_nil arg, instantiateArguments_nil args]

end

theorem Mixin.instantiate_plain (body : List Value) (name : String) :
    (Mixin.mk none body).instantiate name [] = .ok body := by
  change Except.ok (instantiateAll [] body) = Except.ok body
  rw [instantiateAll_nil]

namespace Read

variable {α β : Type} {r : Reader}

/-! ## What a computation leaves -/

/-- The computation gives the result and leaves the items and the scopes, unless it is cut short. -/
def Leaves (x : Read α) (r : Reader) (a : α) (rest : List Item) (scopes : Scopes) : Prop :=
  (∃ e s, x r = .error e s ∧ e.IsCut) ∨
    ∃ s, x r = .ok a s ∧ s.cursor.items = rest ∧ s.scopes = scopes

section Leaves

variable {x : Read α} {f : α → Read β} {a : α} {b : β} {rest rest' : List Item}
  {scopes scopes' : Scopes}

theorem Leaves.pure (hitems : r.cursor.items = rest) (hscopes : r.scopes = scopes) :
    Leaves (Pure.pure a) r a rest scopes :=
  .inr ⟨r, rfl, hitems, hscopes⟩

/-- What is read first leaves the scopes alone. -/
theorem Leaves.behind (hx : Takes x r a rest)
    (hf : ∀ s : Reader, s.cursor.items = rest → s.scopes = r.scopes →
      Leaves (f a) s b rest' scopes) :
    Leaves (x >>= f) r b rest' scopes := by
  rcases hx with ⟨e, s, hrun, hcut⟩ | ⟨s, hrun, hitems, hscopes⟩
  · exact .inl ⟨e, s, bind_error hrun, hcut⟩
  · unfold Leaves
    rw [bind_ok hrun]
    exact hf s hitems hscopes

theorem Leaves.bind (hx : Leaves x r a rest scopes)
    (hf : ∀ s : Reader, s.cursor.items = rest → s.scopes = scopes →
      Leaves (f a) s b rest' scopes') :
    Leaves (x >>= f) r b rest' scopes' := by
  rcases hx with ⟨e, s, hrun, hcut⟩ | ⟨s, hrun, hitems, hscopes⟩
  · exact .inl ⟨e, s, bind_error hrun, hcut⟩
  · unfold Leaves
    rw [bind_ok hrun]
    exact hf s hitems hscopes

theorem Leaves.peek {γ : Type} {look : Cursor → γ} {g : γ → Read β}
    (h : Leaves (g (look r.cursor)) r b rest scopes) :
    Leaves (Read.peek look >>= g) r b rest scopes :=
  h

end Leaves

theorem skipBlanks_tokenItems {v : Value} (hv : v.isWhitespace = false) (ts : List Token)
    (rest : List Item) (names : List String) (last : Position) :
    (Cursor.skipBlanks (tokenItems ts ++ .value v :: rest) names last).1 =
      tokenItems (ts.dropWhile Token.isWhitespace) ++ .value v :: rest := by
  induction ts generalizing last with
  | nil => simp [tokenItems, Cursor.skipBlanks, hv]
  | cons t ts ih =>
      change (Cursor.skipBlanks (.value (.token t) :: (tokenItems ts ++ .value v :: rest)) names last).1 = _
      unfold Cursor.skipBlanks
      by_cases ht : t.isWhitespace = true
      · have ht' : (Value.token t).isWhitespace = true := ht
        rw [if_pos ht', List.dropWhile_cons_of_pos ht]
        exact ih _
      · have ht' : ¬ (Value.token t).isWhitespace = true := ht
        rw [if_neg ht', List.dropWhile_cons_of_neg ht]
        rfl

/-- The whitespace before other tokens or a value is read. -/
theorem takes_skipWhitespace {v : Value} (hv : v.isWhitespace = false) (ts : List Token)
    {rest : List Item} (hitems : r.cursor.items = tokenItems ts ++ .value v :: rest) :
    Takes skipWhitespace r () (tokenItems (ts.dropWhile Token.isWhitespace) ++ .value v :: rest) := by
  refine .inr ⟨{ r with cursor := r.cursor.skipWhitespace }, rfl, ?_, rfl⟩
  rw [← skipBlanks_tokenItems hv ts rest r.cursor.expansions r.cursor.last, ← hitems]
  rfl

theorem takes_blank {blank : Token} (hblank : blank.type = .whitespace) {v : Value}
    (hv : v.isWhitespace = false) {rest : List Item}
    (hitems : r.cursor.items = .value (.token blank) :: .value v :: rest) :
    Takes skipWhitespace r () (.value v :: rest) := by
  have hrun := takes_skipWhitespace hv [blank] hitems
  have ht : blank.isWhitespace = true := by simpa [Token.isWhitespace] using hblank
  rwa [List.dropWhile_cons_of_pos ht, List.dropWhile_nil] at hrun

theorem takes_consume {t : Token} {type : TokenType} {what : String} {rest : List Item}
    (ht : t.type = type) (htype : type.closer? = none)
    (hitems : r.cursor.items = .value (.token t) :: rest) :
    Takes (scan (Scan.consume type what)) r t rest := by
  have hfront := Cursor.peek_of_blank Item.blank_nil hitems
  refine .inr ⟨_, (expects_consume what htype).accept hfront ?_,
    Cursor.items_next_of_blank Item.blank_nil hitems, rfl⟩
  simpa [Value.hasType] using ht

/-! ## The definition of a mixin -/

/-- The tokens are the definition of a mixin without parameters, whose body groups to the values. -/
inductive PlainDefinition (m : String) (us : List Value) : List Token → Prop
  | intro {keyword blank name blank' opener closer : Token} {inner : List Token} :
      keyword.type = .atKeyword → Text.foldCase keyword.text = "mixin" → blank.type = .whitespace →
      name.type = .ident → name.text = m → blank'.type = .whitespace → opener.type = .openBrace →
      closer.type = .closeBrace → Grouped inner us →
      PlainDefinition m us (keyword :: blank :: name :: blank' :: opener :: (inner ++ [closer]))

section Definition

variable {m : String} {us : List Value} {rest : List Item}

/-- A definition binds the groups of its body. -/
theorem leaves_defineMixin {keyword : Token} {ts : List Token}
    (h : PlainDefinition m us (keyword :: ts)) (hitems : r.cursor.items = tokenItems ts ++ rest)
    (n : Nat) :
    Leaves (defineMixin n) r () rest (r.scopes.setMixin m ⟨none, us⟩) := by
  cases h with
  | @intro _ blank name blank' opener closer inner _ _ hblank hname htext hblank' hopener hcloser hinner =>
  have hsplit : r.cursor.items = .value (.token blank) :: .value (.token name) ::
      .value (.token blank') :: .value (.token opener) ::
        (tokenItems inner ++ .value (.token closer) :: rest) := by
    rw [hitems]
    simp [tokenItems]
  have hvisible {t : Token} (ht : t.type ≠ .whitespace) : (Value.token t).isWhitespace = false := by
    simpa [Value.isWhitespace, Value.hasType] using ht
  unfold defineMixin
  refine .behind (takes_blank hblank (hvisible (by simp [hname])) hsplit) fun s hs hscopes => ?_
  have hhead : Takes (mixinHead n) s (name, none) (.value (.token blank') ::
      .value (.token opener) :: (tokenItems inner ++ .value (.token closer) :: rest)) := by
    have hfront : s.cursor.peekToken 0 = some name := by
      simp [Cursor.peekToken, Cursor.peek_of_blank Item.blank_nil hs]
    unfold mixinHead
    refine .peek ?_
    simp only [hfront, hname, if_true]
    exact (takes_next Item.blank_nil hs).bind fun q hq _ => .pure hq
  refine .behind hhead fun t ht htscopes => ?_
  refine .behind (takes_blank hblank' (hvisible (by simp [hopener])) ht) fun u hu huscopes => ?_
  have hfront := Cursor.peek_of_blank Item.blank_nil hu
  have hpartner : opener.type.partner? = some closer.type := by
    rw [hopener, hcloser]
    rfl
  have hbody : Takes (capturing [] (block n)) u ⟨opener, us, some closer⟩ rest := by
    refine .capturing [] fun w hw => ?_
    rw [← hw] at hu
    exact takes_block_of hpartner (regroups hinner) hinner.firstToken_not_closer Item.blank_nil hu n
  refine .peek ?_
  simp only [hfront, hopener, if_true]
  refine .behind hbody fun w hw hwscopes => .inr ⟨_, rfl, hw, ?_⟩
  change w.scopes.setMixin name.text ⟨none, us⟩ = _
  rw [hwscopes, huscopes, htscopes, hscopes, htext]

/-- The next rule is the one behind the definition, which is read with the mixin bound. -/
theorem leaves_nextRule_mixin {ts : List Token} (h : PlainDefinition m us ts)
    (hitems : r.cursor.items = tokenItems ts ++ rest) {rule : Option Rule} {rest' : List Item}
    {scopes : Scopes} (hmore : ∀ (n : Nat) (s : Reader), s.cursor.items = rest →
      s.scopes = r.scopes.setMixin m ⟨none, us⟩ → Leaves (nextRule n) s rule rest' scopes) (n : Nat) :
    Leaves (nextRule n) r rule rest' scopes := by
  cases n with
  | zero => exact .inl ⟨.exhausted, r, rfl, trivial⟩
  | succ n =>
      obtain ⟨keyword, tail, rfl, hkeyword, hmixin⟩ : ∃ keyword tail, ts = keyword :: tail ∧
          keyword.type = .atKeyword ∧ Text.foldCase keyword.text = "mixin" := by
        cases h with
        | intro hkeyword hmixin => exact ⟨_, _, rfl, hkeyword, hmixin⟩
      have hvisible : (Value.token keyword).isWhitespace = false := by
        simp [Value.isWhitespace, Value.hasType, hkeyword]
      rw [nextRule]
      refine .behind (takes_skipWhitespace hvisible [] hitems) fun s hs hscopes => ?_
      refine .peek ?_
      have hfront := Cursor.peek_of_blank Item.blank_nil hs
      have hdirective : Leaves (atRule n) s none rest (r.scopes.setMixin m ⟨none, us⟩) := by
        unfold atRule
        refine .behind (takes_consume hkeyword rfl hs) fun t ht htscopes => ?_
        simp only [hmixin, if_true]
        rw [← hscopes, ← htscopes]
        exact (leaves_defineMixin h ht n).bind fun u hu huscopes => .pure hu huscopes
      simp only [hfront, hkeyword, reduceCtorEq, or_self, if_false, if_true]
      exact hdirective.bind fun t ht htscopes => hmore n t ht htscopes

end Definition

/-! ## The head of a rule -/

/-- The tokens group to the prelude of a qualified rule: they are read neither as a statement of
another kind nor as more than one. -/
structure RuleHead (ts : List Token) (vs : List Value) : Prop where
  grouped : Grouped ts vs
  starts : ∀ v ∈ (vs.dropWhile Value.isWhitespace).head?,
    v.firstToken.type ≠ .cdo ∧ v.firstToken.type ≠ .cdc ∧ v.firstToken.type ≠ .atKeyword
  braces : ∀ v ∈ vs, v.firstToken.type ≠ .openBrace

/-- The token at the front is the first one of the values. -/
theorem peek_of_grouped {ts : List Token} {vs : List Value} (h : Grouped ts vs) {u : Token}
    {rest : List Item} (hitems : r.cursor.items = tokenItems ts ++ .value (.token u) :: rest) :
    r.cursor.peek 0 = some (.token ((vs.head?.map Value.firstToken).getD u)) := by
  cases h with
  | nil | single | block | call => exact Cursor.peek_of_blank Item.blank_nil hitems

/-- No variable starts where tokens are grouped. -/
theorem isVariableStart_of_grouped {ts : List Token} {vs : List Value} (h : Grouped ts vs) {u : Token}
    (hu : u.type = .openBrace) {rest : List Item}
    (hitems : r.cursor.items = tokenItems ts ++ .value (.token u) :: rest) :
    isVariableStart r = .ok false r := by
  have hopener {t : Token} {items : List Item} (ht : t.type.closer?.isSome = true)
      (hitems : r.cursor.items = .value (.token t) :: items) : r.cursor.checkDelim 0 "$" = false := by
    have hpeek := Cursor.peek_of_blank Item.blank_nil hitems
    simp [Cursor.checkDelim, hpeek, Value.isDelim, isDelim_of_opener ht]
  rw [isVariableStart, peek_run]
  refine congrArg (EStateM.Result.ok · r) ?_
  rw [Bool.and_eq_false_iff]
  cases h with
  | nil => exact .inl (hopener (by rw [hu]; rfl) hitems)
  | block hpartner => exact .inl (hopener (by rw [TokenType.closer?_of_partner? hpartner]; rfl) hitems)
  | call hname => exact .inl (hopener (by rw [hname]; rfl) hitems)
  | @single t ts vs ht hvar _ =>
      cases hdollar : r.cursor.checkDelim 0 "$" with
      | false => exact .inl rfl
      | true =>
          have hpeek := Cursor.peek_of_blank Item.blank_nil hitems
          have ht : t.isDelim "$" = true := by
            simpa [Cursor.checkDelim, hpeek, Value.isDelim] using hdollar
          refine .inr ?_
          have hrest : r.cursor.peek 1 = some (.token ((ts ++ [u]).head (by simp))) := by
            rw [Cursor.peek_eq_getElem?, Cursor.rest, hitems]
            cases ts <;> rfl
          simp only [Cursor.check, hrest, Option.any_some, Value.hasType, beq_eq_false_iff_ne]
          cases ts with
          | nil => simp [hu]
          | cons w ws => exact hvar ht w rfl

theorem skips_qualifiedEnd {t : Token} (ht : t.type ≠ .openBrace) :
    Skips qualifiedEnd t := by
  intro read r rest hitems
  have hfront := Cursor.peek_of_blank Item.blank_nil hitems
  unfold qualifiedEnd
  rw [bind_ok (peek_run _ r), hfront]
  simp only [if_neg ht]
  rfl

/-- A rule is read up to its block, which stays flat. -/
theorem takes_nextRule_head {ts inner : List Token} {vs : List Value} (h : RuleHead ts vs)
    {opener closer : Token} (hopener : opener.type = .openBrace) (hcloser : closer.type = .closeBrace)
    (hinner : BracketBalanced inner) {rest : List Item}
    (hitems : r.cursor.items =
      tokenItems ts ++ .value (.token opener) :: (tokenItems inner ++ .value (.token closer) :: rest))
    (n : Nat) :
    Takes (nextRule n) r (some (.qualified ⟨trimWhitespace (vs.dropWhile Value.isWhitespace),
      ⟨opener, inner.map .token, some closer⟩⟩)) rest := by
  cases n with
  | zero => exact .exhausted
  | succ n =>
      have hpartner : opener.type.partner? = some closer.type := by
        rw [hopener, hcloser]
        rfl
      have hgrouped := h.grouped.dropWhile
      have hbraces : ∀ v ∈ vs.dropWhile Value.isWhitespace, v.firstToken.type ≠ .openBrace :=
        fun v hv => h.braces v ((List.dropWhile_sublist _).subset hv)
      have hvisible : (Value.token opener).isWhitespace = false := by
        simp [Value.isWhitespace, Value.hasType, hopener]
      rw [nextRule]
      refine (takes_skipWhitespace hvisible ts hitems).bind fun s hs _ => ?_
      have hrule : Takes (qualifiedRule n) s
          ⟨trimWhitespace (vs.dropWhile Value.isWhitespace), opener, inner.map .token, some closer⟩
          rest := by
        refine (regroups hgrouped).collect (fun v hv => skips_qualifiedEnd (hbraces v hv)) ?_ hs ?_ n
        · intro v hv
          cases hv
          simp [Value.hasType, hopener]
        · intro n t ht _
          cases n with
          | zero =>
              rw [collect_zero]
              exact .exhausted
          | succ n =>
              have hclosed : Takes (qualifiedEnd ((vs.dropWhile Value.isWhitespace).reverse ++ [])) t
                  (some ⟨trimWhitespace (vs.dropWhile Value.isWhitespace), opener, inner.map .token,
                    some closer⟩) rest := by
                unfold qualifiedEnd
                refine .peek ?_
                simp only [Cursor.peek_of_blank Item.blank_nil ht, hopener, if_true, List.append_nil,
                  List.reverse_reverse]
                exact (takes_rawBlock hpartner hinner Item.blank_nil ht).bind fun u hu _ => .pure hu
              rw [collect]
              exact hclosed.bind fun u hu _ => .pure hu
      have hfront := peek_of_grouped hgrouped hs
      have hstart := isVariableStart_of_grouped hgrouped hopener hs
      refine .peek ?_
      rw [hfront]
      dsimp only
      have htypes : ∀ {t : Token}, t = ((vs.dropWhile Value.isWhitespace).head?.map
          Value.firstToken).getD opener → t.type ≠ .cdo ∧ t.type ≠ .cdc ∧ t.type ≠ .atKeyword := by
        rintro t rfl
        cases hhead : (vs.dropWhile Value.isWhitespace).head? with
        | none => simp [hopener]
        | some v => exact h.starts v hhead
      obtain ⟨hcdo, hcdc, hkeyword⟩ := htypes rfl
      rw [if_neg (not_or.mpr ⟨hcdo, hcdc⟩), if_neg hkeyword]
      refine .of_run (bind_ok hstart) ?_
      exact hrule.bind fun t ht _ => .pure ht

/-! ## Inclusions -/

/-- The tokens are an inclusion of one mixin without arguments. -/
inductive PlainInclusion (m : String) : List Token → Prop
  | intro {keyword blank name semicolon : Token} :
      keyword.type = .atKeyword → Text.foldCase keyword.text = "include" →
      blank.type = .whitespace → name.type = .ident → name.text = m → semicolon.type = .semicolon →
      PlainInclusion m [keyword, blank, name, semicolon]

section Inclusion

variable {m : String} {body : List Value} {keyword : Token} {ts : List Token} {rest : List Item}

/-- The one target of an inclusion is instantiated. -/
theorem takes_targets (h : PlainInclusion m (keyword :: ts))
    (hbound : r.scopes.findMixin? m = some ⟨none, body⟩)
    (hitems : r.cursor.items = tokenItems ts ++ rest) (n : Nat) :
    Takes (targets n []) r [(m, body)] rest := by
  cases h with
  | @intro _ blank name semicolon _ _ hblank hname htext hsemicolon =>
  have hvisible {t : Token} (ht : t.type ≠ .whitespace) : (Value.token t).isWhitespace = false := by
    simpa [Value.isWhitespace, Value.hasType] using ht
  have hclosed (n : Nat) (s : Reader) (hs : s.cursor.items = .value (.token semicolon) :: rest) :
      Takes (targets n [(m, body)]) s [(m, body)] rest := by
    cases n with
    | zero => exact .exhausted
    | succ n =>
        rw [targets]
        refine (takes_skipWhitespace (hvisible (by simp [hsemicolon])) [] hs).bind
          fun t ht _ => .peek ?_
        simp only [Cursor.peek_of_blank Item.blank_nil ht, hsemicolon, if_true]
        exact (takes_next Item.blank_nil ht).bind fun u hu _ => .pure hu
  cases n with
  | zero => exact .exhausted
  | succ n =>
      rw [targets]
      refine (takes_blank hblank (hvisible (by simp [hname])) hitems).bind fun s hs hscopes => .peek ?_
      simp only [Cursor.peek_of_blank Item.blank_nil hs, hname, reduceCtorEq, if_false, if_true]
      refine (takes_next Item.blank_nil hs).bind fun t ht htscopes => ?_
      have hfound : t.scopes.findMixin? name.text = some ⟨none, body⟩ := by
        rw [htscopes, hscopes, htext, hbound]
      have hinstance : instantiate name [] t = .ok body t := by
        rw [instantiate_run [] hfound, Mixin.instantiate_plain]
      refine .of_run (bind_ok hinstance) ?_
      rw [htext]
      exact hclosed n t ht

/-- An inclusion puts the body of the mixin in front. -/
theorem takes_inclusion (h : PlainInclusion m (keyword :: ts))
    (hbound : r.scopes.findMixin? m = some ⟨none, body⟩)
    (hitems : r.cursor.items = tokenItems (keyword :: ts) ++ rest) (n : Nat) :
    Takes (styleStatement n (.token keyword)) r none (body.map .value ++ .marker m :: rest) := by
  cases n with
  | zero => exact .exhausted
  | succ n =>
      have hkind : keyword.type = .atKeyword ∧ Text.foldCase keyword.text = "include" := by
        cases h with
        | intro hkeyword hinclude => exact ⟨hkeyword, hinclude⟩
      obtain ⟨hkeyword, hinclude⟩ := hkind
      have hincludes (s : Reader) (hs : s.cursor.items = tokenItems ts ++ rest)
          (hscopes : s.scopes = r.scopes) :
          Takes (includeMixins n keyword) s () (body.map .value ++ .marker m :: rest) := by
        unfold includeMixins
        rw [← hscopes] at hbound
        refine (takes_targets h hbound hs n).bind fun t ht _ => ?_
        change Takes (bounded keyword m 1 (expand [(m, body)])) t () _
        unfold Takes
        rw [bounded_run]
        split
        · exact .inl ⟨_, t, rfl, rfl⟩
        · refine .inr ⟨t.including m body, expand_single m body t, ?_, rfl⟩
          simp [Reader.including, Cursor.spliceExpansion, ht]
      rw [styleStatement, if_neg (by simp [hkeyword]), if_pos hkeyword]
      have hrule : Takes (atRule n) r none (body.map .value ++ .marker m :: rest) := by
        unfold atRule
        refine (takes_consume hkeyword rfl hitems).bind fun s hs hscopes => ?_
        simp only [hinclude, String.reduceEq, if_false, if_true]
        exact (hincludes s hs hscopes).bind fun t ht _ => .pure ht
      exact hrule.bind fun s hs _ => .pure hs

end Inclusion

end Read
end Cascade

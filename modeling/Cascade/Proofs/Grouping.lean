import Cascade.Reader.Values
import Mathlib.Data.List.Chain

/-!
# Grouping of matching brackets

Where brackets match and no dollar sign stands before a name, reading values only
groups them: every bracket and every function is closed by its own closer, and
the scopes are not touched.

**Method.**  `Grouped ts vs` says that the tokens `ts` make up the values `vs`.
`Takes x r a rest` says that the computation `x` gives `a` and goes on to `rest`,
unless it is cut short by the budget or by a limit.

**Results.**
* `exists_grouped`: balanced tokens make up some values.
* `takes_collect`, `takes_arguments`: a list of values is read to its end.
* `takes_block`, `takes_call`, `takes_value`: so is a single group.
-/

namespace Cascade

/-! ## Matching brackets -/

/-- A token that is spelled so, at no place. -/
def Token.bare (type : TokenType) (text : String) : Token :=
  ⟨type, text, .none, .none⟩

/-- The token neither opens nor closes a group, and it does not end the input. -/
structure Token.IsSingle (t : Token) : Prop where
  opens : t.type.closer? = none
  closes : t.type.isCloser = false
  ends : t.type ≠ .eof

/-- Brackets and functions are closed by their own closers. -/
inductive BracketBalanced : List Token → Prop
  | nil : BracketBalanced []
  | single {t : Token} {ts : List Token} :
      t.IsSingle → BracketBalanced ts → BracketBalanced (t :: ts)
  | group {opener closer : Token} {inner ts : List Token} :
      opener.type.closer? = some closer.type → BracketBalanced inner → BracketBalanced ts →
      BracketBalanced (opener :: (inner ++ closer :: ts))

/-- No dollar sign stands right before a name. -/
def NoVariable (ts : List Token) : Prop :=
  List.IsChain (fun t u => t.isDelim "$" = true → u.type ≠ .ident) ts

/-- One more value of a call, where a comma ends an argument. -/
def Read.CallState.add (s : Read.CallState) (v : Value) : Read.CallState :=
  if v.hasType .comma then s.separate v.witness else s.push v

/-- The call with the given values between its parentheses. -/
def callOf (name : Token) (vs : List Value) (closer : Token) : Value :=
  ((vs.foldl Read.CallState.add {}).close name (some closer)).toValue

/-- The tokens make up the values. -/
inductive Grouped : List Token → List Value → Prop
  | nil : Grouped [] []
  | single {t : Token} {ts : List Token} {vs : List Value} :
      t.IsSingle → (t.isDelim "$" = true → ∀ u ∈ ts.head?, u.type ≠ .ident) → Grouped ts vs →
      Grouped (t :: ts) (.token t :: vs)
  | block {opener closer : Token} {inner ts : List Token} {us vs : List Value} :
      opener.type.partner? = some closer.type → Grouped inner us → Grouped ts vs →
      Grouped (opener :: (inner ++ closer :: ts)) (.block opener us (some closer) :: vs)
  | call {name closer : Token} {inner ts : List Token} {us vs : List Value} :
      name.type = .function → closer.type = .closeParen → Grouped inner us → Grouped ts vs →
      Grouped (name :: (inner ++ closer :: ts)) (callOf name us closer :: vs)

theorem TokenType.closer?_cases {type closer : TokenType} (h : type.closer? = some closer) :
    type.partner? = some closer ∨ (type = .function ∧ closer = .closeParen) := by
  cases type <;> simp_all [TokenType.closer?, TokenType.partner?]

theorem TokenType.isCloser_of_partner? {type closer : TokenType} (h : type.partner? = some closer) :
    closer.isCloser = true := by
  cases type <;> simp_all [TokenType.partner?]
  all_goals
    subst h
    rfl

theorem TokenType.isCloser_of_closer? {type closer : TokenType} (h : type.closer? = some closer) :
    closer.isCloser = true := by
  rcases TokenType.closer?_cases h with hpartner | ⟨_, rfl⟩
  · exact TokenType.isCloser_of_partner? hpartner
  · rfl

theorem TokenType.closer?_of_isCloser {type : TokenType} (h : type.isCloser = true) :
    type.closer? = none := by
  cases type <;> simp_all [TokenType.isCloser, TokenType.closer?, TokenType.partner?]

theorem TokenType.closer?_of_partner? {type closer : TokenType} (h : type.partner? = some closer) :
    type.closer? = some closer := by
  cases type <;> simp_all [TokenType.partner?, TokenType.closer?]

theorem TokenType.isCloser_of_opens {type closer : TokenType} (h : type.closer? = some closer) :
    type.isCloser = false := by
  cases type <;> simp_all [TokenType.partner?, TokenType.closer?, TokenType.isCloser]

theorem TokenType.closer?_eq_none_iff {type : TokenType} :
    type.closer? = none ↔ type.isOpener = false ∧ type ≠ .function := by
  cases type <;> simp [TokenType.closer?, TokenType.isOpener, TokenType.partner?]

/-- Balanced tokens make up some values. -/
theorem exists_grouped {ts : List Token} (h : BracketBalanced ts) (hvar : NoVariable ts) :
    ∃ vs, Grouped ts vs := by
  induction h with
  | nil => exact ⟨[], .nil⟩
  | @single t ts ht _ ih =>
      obtain ⟨vs, hvs⟩ := ih hvar.tail
      refine ⟨_, .single ht ?_ hvs⟩
      intro hdollar u hu
      cases ts with
      | nil => cases hu
      | cons w ws =>
          cases hu
          exact (List.isChain_cons_cons.mp hvar).1 hdollar
  | @group opener closer inner ts hcloser _ _ ihinner ih =>
      have hrest : NoVariable (inner ++ closer :: ts) := hvar.tail
      obtain ⟨us, hus⟩ := ihinner (List.isChain_append.mp hrest).1
      obtain ⟨vs, hvs⟩ := ih (List.isChain_append.mp hrest).2.1.tail
      rcases TokenType.closer?_cases hcloser with hpartner | ⟨hname, hparen⟩
      · exact ⟨_, .block hpartner hus hvs⟩
      · exact ⟨_, .call hname hparen hus hvs⟩

theorem Grouped.balanced {ts : List Token} {vs : List Value} (h : Grouped ts vs) :
    BracketBalanced ts := by
  induction h with
  | nil => exact .nil
  | single ht _ _ ih => exact .single ht ih
  | @block o c inner ts us vs hpartner _ _ ihinner ih =>
      exact .group (TokenType.closer?_of_partner? hpartner) ihinner ih
  | call hname hparen _ _ ihinner ih =>
      refine .group ?_ ihinner ih
      rw [hname, hparen]
      rfl

/-- The token that a value starts with. -/
def Value.firstToken : Value → Token
  | .token t => t
  | .block opener _ _ => opener
  | .call name _ _ _ => name
  | .reference dollar _ => dollar

theorem Grouped.firstToken_not_closer {ts : List Token} {vs : List Value} (h : Grouped ts vs) :
    ∀ v ∈ vs, v.firstToken.type.isCloser = false := by
  induction h with
  | nil => exact fun _ hv => (List.not_mem_nil hv).elim
  | single ht _ _ ih =>
      intro v hv
      rcases List.mem_cons.mp hv with rfl | hv
      · exact ht.closes
      · exact ih v hv
  | @block opener closer inner ts us vs hpartner _ _ _ ih =>
      intro v hv
      rcases List.mem_cons.mp hv with rfl | hv
      · exact TokenType.isCloser_of_opens (TokenType.closer?_of_partner? hpartner)
      · exact ih v hv
  | @call name closer inner ts us vs hname _ _ _ _ ih =>
      intro v hv
      rcases List.mem_cons.mp hv with rfl | hv
      · change name.type.isCloser = false
        rw [hname]
        rfl
      · exact ih v hv

/-! ## Reading that only groups -/

/-- The budget ran out, or a limit was hit. -/
def Stop.IsCut : Stop → Prop
  | .exhausted => True
  | .fault d => d.kind = .recursionLimit

/-- The items hold no value. -/
def Item.Blank (lead : List Item) : Prop :=
  lead.filterMap Item.value? = []

theorem Item.blank_nil :
    Item.Blank [] :=
  rfl

theorem Cursor.dropMarkers_of_blank {lead : List Item} (h : Item.Blank lead) (v : Value)
    (rest : List Item) (names : List String) :
    ∃ names', dropMarkers (lead ++ .value v :: rest) names = (.value v :: rest, names') := by
  induction lead generalizing names with
  | nil => exact ⟨names, rfl⟩
  | cons item lead ih =>
      cases item with
      | value u => simp [Item.Blank, Item.value?] at h
      | marker k =>
          have hlead : Item.Blank lead := by
            simpa [Item.Blank, Item.value?, List.filterMap_cons] using h
          obtain ⟨names', hnames⟩ := ih hlead names.tail
          exact ⟨names', by simpa [dropMarkers] using hnames⟩

theorem Cursor.rest_of_blank {c : Cursor} {lead rest : List Item} {v : Value}
    (hlead : Item.Blank lead) (hitems : c.items = lead ++ .value v :: rest) :
    c.rest = v :: rest.filterMap Item.value? := by
  have hlead : lead.filterMap Item.value? = [] := hlead
  rw [Cursor.rest, hitems, List.filterMap_append, hlead]
  simp [Item.value?]

theorem Cursor.peek_of_blank {c : Cursor} {lead rest : List Item} {v : Value}
    (hlead : Item.Blank lead) (hitems : c.items = lead ++ .value v :: rest) :
    c.peek 0 = some v := by
  rw [peek_eq_getElem?, rest_of_blank hlead hitems]
  rfl

theorem Cursor.items_next_of_blank {c : Cursor} {lead rest : List Item} {v : Value}
    (hlead : Item.Blank lead) (hitems : c.items = lead ++ .value v :: rest) :
    c.next.2.items = rest := by
  obtain ⟨names, hnames⟩ := dropMarkers_of_blank hlead v rest c.expansions
  simp [Cursor.next, hitems, hnames]

/-- Behind the front value there is less to read. -/
theorem Cursor.length_next_lt {c : Cursor} {v : Value} (h : c.peek 0 = some v) :
    c.next.2.items.length < c.items.length := by
  have hshort : (dropMarkers c.items c.expansions).1.length ≤ c.items.length := by
    generalize c.expansions = names
    generalize c.items = items
    fun_induction dropMarkers items names with
    | case1 _ _ _ ih => exact Nat.le_succ_of_le ih
    | case2 => exact Nat.le_refl _
  have hfront : c.next.1 = some v := by
    rw [Cursor.next_fst, ← h, Cursor.peek_eq_getElem?, List.head?_eq_getElem?]
  revert hshort hfront
  unfold Cursor.next
  rcases dropMarkers c.items c.expansions with ⟨_ | ⟨_ | name, rest⟩, names⟩
  · intro _ hfront
    cases hfront
  · intro hshort _
    exact hshort
  · intro _ hfront
    cases hfront

namespace Read

variable {α β : Type} {r : Reader}

/-- The computation gives the result, goes on to the items and leaves the scopes alone, unless it is
cut short. -/
def Takes (x : Read α) (r : Reader) (a : α) (rest : List Item) : Prop :=
  (∃ e s, x r = .error e s ∧ e.IsCut) ∨
    ∃ s, x r = .ok a s ∧ s.cursor.items = rest ∧ s.scopes = r.scopes

theorem Takes.pure {a : α} {rest : List Item} (h : r.cursor.items = rest) :
    Takes (Pure.pure a) r a rest :=
  .inr ⟨r, rfl, h, rfl⟩

theorem Takes.exhausted {a : α} {rest : List Item} :
    Takes Read.exhausted r a rest :=
  .inl ⟨.exhausted, r, rfl, trivial⟩

theorem Takes.bind {x : Read α} {f : α → Read β} {a : α} {b : β} {rest rest' : List Item}
    (hx : Takes x r a rest)
    (hf : ∀ s : Reader, s.cursor.items = rest → s.scopes = r.scopes → Takes (f a) s b rest') :
    Takes (x >>= f) r b rest' := by
  rcases hx with ⟨e, s, hrun, hcut⟩ | ⟨s, hrun, hitems, hscopes⟩
  · exact .inl ⟨e, s, bind_error hrun, hcut⟩
  · rcases hf s hitems hscopes with ⟨e, t, hrun', hcut⟩ | ⟨t, hrun', hitems', hscopes'⟩
    · exact .inl ⟨e, t, (bind_ok hrun).trans hrun', hcut⟩
    · exact .inr ⟨t, (bind_ok hrun).trans hrun', hitems', hscopes'.trans hscopes⟩

theorem Takes.of_run {x y : Read α} {a : α} {rest : List Item} (hrun : x r = y r)
    (h : Takes y r a rest) :
    Takes x r a rest := by
  unfold Takes
  rw [hrun]
  exact h

theorem Takes.peek {f : Cursor → α} {g : α → Read β} {b : β} {rest : List Item}
    (h : Takes (g (f r.cursor)) r b rest) :
    Takes (Read.peek f >>= g) r b rest :=
  h

theorem Takes.nested {x : Read α} {a : α} {rest : List Item}
    (h : ∀ s : Reader, s.cursor = r.cursor → s.scopes = r.scopes → Takes x s a rest) :
    Takes (nested x) r a rest := by
  by_cases hroom : r.nesting < r.limits.nestingDepth
  · have hx := h { r with nesting := r.nesting + 1, deepest := max r.deepest (r.nesting + 1) } rfl rfl
    rcases hx with ⟨e, s, hrun, hcut⟩ | ⟨s, hrun, hitems, hscopes⟩
    · exact .inl ⟨e, _, (nested_of_lt hroom).trans (andFinally_error hrun), hcut⟩
    · exact .inr ⟨_, (nested_of_lt hroom).trans (andFinally_ok hrun), hitems, hscopes⟩
  · exact .inl ⟨_, r, nested_of_le (Int.not_lt.mp hroom), rfl⟩

theorem Takes.inScope {x : Read α} {a : α} {rest : List Item}
    (h : ∀ s : Reader, s.cursor = r.cursor → s.scopes = r.scopes.enter → Takes x s a rest) :
    Takes (inScope x) r a rest := by
  rcases h { r with scopes := r.scopes.enter } rfl rfl with
    ⟨e, s, hrun, hcut⟩ | ⟨s, hrun, hitems, hscopes⟩
  · exact .inl ⟨e, _, inScope_run.trans (andFinally_error hrun), hcut⟩
  · refine .inr ⟨_, inScope_run.trans (andFinally_ok hrun), hitems, ?_⟩
    simp only [hscopes]
    rfl

theorem Takes.capturing {x : Read α} {a : α} {rest : List Item} (names : List String)
    (h : ∀ s : Reader, s.cursor = r.cursor → Takes x s a rest) :
    Takes (capturing names x) r a rest := by
  rcases h { r with scopes := r.scopes.enterCapture names } rfl with
    ⟨e, s, hrun, hcut⟩ | ⟨s, hrun, hitems, hscopes⟩
  · exact .inl ⟨e, _, (capturing_run names).trans (andFinally_error hrun), hcut⟩
  · refine .inr ⟨_, (capturing_run names).trans (andFinally_ok hrun), hitems, ?_⟩
    simp only [hscopes]
    rfl

theorem takes_next {lead rest : List Item} {v : Value} (hlead : Item.Blank lead)
    (hitems : r.cursor.items = lead ++ .value v :: rest) :
    Takes next r (some v) rest :=
  .inr ⟨_, next_of_peek (Cursor.peek_of_blank hlead hitems),
    Cursor.items_next_of_blank hlead hitems, rfl⟩

/-- The items of a token list. -/
def tokenItems (ts : List Token) : List Item :=
  ts.map fun t => .value (.token t)

/-- A token that starts nothing is read as it stands. -/
theorem value_of_plain {t : Token} (hpeek : r.cursor.peek 0 = some (.token t))
    (hopener : t.type.isOpener = false) (hfunction : t.type ≠ .function)
    (hstart : (r.cursor.checkDelim 0 "$" && r.cursor.check 1 .ident) = false) (n : Nat) :
    value (n + 1) r = next r := by
  have hrun : isVariableStart r = .ok false r := by
    rw [isVariableStart, peek_run, hstart]
  rw [value, bind_ok (peek_run _ r), hpeek]
  simp only [hopener, if_neg hfunction]
  exact bind_ok hrun

/-- A token that opens nothing is read as it stands, unless it is a dollar sign before a name. -/
theorem value_of_single {lead rest : List Item} {t : Token} (hopens : t.type.closer? = none)
    (hlead : Item.Blank lead) (hitems : r.cursor.items = lead ++ .value (.token t) :: rest)
    (hvar : t.isDelim "$" = true → ∀ v ∈ Item.first? rest, v.hasType .ident = false) (n : Nat) :
    value (n + 1) r = next r := by
  have hfront := Cursor.peek_of_blank hlead hitems
  obtain ⟨hopener, hfunction⟩ := TokenType.closer?_eq_none_iff.mp hopens
  have hsecond : r.cursor.peek 1 = Item.first? rest := by
    rw [Cursor.peek_eq_getElem?, Cursor.rest_of_blank hlead hitems, Cursor.first?_eq_head?,
      List.head?_eq_getElem?]
    rfl
  have hstart : (r.cursor.checkDelim 0 "$" && r.cursor.check 1 .ident) = false := by
    refine Bool.eq_false_iff.mpr fun hboth => ?_
    obtain ⟨hdollar, hident⟩ := Bool.and_eq_true_iff.mp hboth
    rw [Cursor.checkDelim, hfront] at hdollar
    rw [Cursor.check, hsecond, Option.any_eq_true] at hident
    obtain ⟨v, hv, hident⟩ := hident
    rw [hvar hdollar v hv] at hident
    cases hident
  exact value_of_plain hfront hopener hfunction hstart n

theorem takes_single {lead rest : List Item} {t : Token} (ht : t.IsSingle) (hlead : Item.Blank lead)
    (hitems : r.cursor.items = lead ++ .value (.token t) :: rest)
    (hvar : t.isDelim "$" = true → ∀ v ∈ Item.first? rest, v.hasType .ident = false) (n : Nat) :
    Takes (value n) r (some (.token t)) rest := by
  cases n with
  | zero =>
      rw [value_zero]
      exact .exhausted
  | succ n =>
      exact .of_run (value_of_single ht.opens hlead hitems hvar n) (takes_next hlead hitems)

/-! ## Lists of values -/

/-- The end of a list is not at a token of this kind, where no expansion ends before it. -/
def Skips (ending : List Value → Read (Option β)) (t : Token) : Prop :=
  ∀ (read : List Value) (r : Reader) (rest : List Item),
    r.cursor.items = .value (.token t) :: rest → ending read r = .ok none r

theorem skips_blockEnd {opener t : Token} {closer : TokenType} (hcloser : closer.isCloser = true)
    (ht : t.type.isCloser = false) :
    Skips (blockEnd opener closer) t := by
  intro read r rest hitems
  have hfront := Cursor.peek_of_blank Item.blank_nil hitems
  have htype : (t.type == closer) = false := by
    cases h : t.type == closer with
    | false => rfl
    | true =>
        rw [eq_of_beq h, hcloser] at ht
        cases ht
  unfold blockEnd
  rw [bind_ok (peek_run _ r)]
  simp only [hfront, Value.hasType, htype]
  rfl

/-- The tokens are read as the values, by every loop over values. -/
structure Regroups (ts : List Token) (vs : List Value) : Prop where
  collect : ∀ {β : Type} {ending : List Value → Read (Option β)} {b : β} {rest rest' : List Item}
    {r : Reader} {read : List Value}, (∀ v ∈ vs, Skips ending v.firstToken) →
    (∀ v ∈ Item.first? rest, v.hasType .ident = false) →
    r.cursor.items = tokenItems ts ++ rest →
    (∀ (n : Nat) (s : Reader), s.cursor.items = rest → s.scopes = r.scopes →
      Takes (collect n ending (vs.reverse ++ read)) s b rest') →
    ∀ n, Takes (collect n ending read) r b rest'
  arguments : ∀ {name : Token} {b : Call} {rest rest' : List Item} {r : Reader} {state : CallState},
    (∀ v ∈ Item.first? rest, v.hasType .ident = false) →
    r.cursor.items = tokenItems ts ++ rest →
    (∀ (n : Nat) (s : Reader), s.cursor.items = rest → s.scopes = r.scopes →
      Takes (arguments n name (vs.foldl CallState.add state)) s b rest') →
    ∀ n, Takes (arguments n name state) r b rest'

theorem takes_collect_step {ending : List Value → Read (Option β)} {b : β}
    {items mid rest : List Item} {read : List Value} {t : Token} {v : Value}
    (hitems : r.cursor.items = .value (.token t) :: items)
    (hskip : Skips ending t) (hvalue : ∀ n, Takes (value n) r (some v) mid)
    (hnext : ∀ (n : Nat) (s : Reader), s.cursor.items = mid → s.scopes = r.scopes →
      Takes (collect n ending (v :: read)) s b rest) (n : Nat) :
    Takes (collect n ending read) r b rest := by
  cases n with
  | zero =>
      rw [collect_zero]
      exact .exhausted
  | succ n =>
      rw [collect]
      refine .of_run (bind_ok (hskip read r _ hitems)) ?_
      exact (hvalue n).bind fun s hitems hscopes => hnext n s hitems hscopes

theorem takes_arguments_step {name : Token} {b : Call} {mid rest : List Item} {state : CallState}
    {t : Token} {v : Value} (hfront : r.cursor.peek 0 = some (.token t))
    (ht : t.type.isCloser = false) (hcomma : t.type ≠ .comma) (hv : v.hasType .comma = false)
    (hvalue : ∀ n, Takes (value n) r (some v) mid)
    (hnext : ∀ (n : Nat) (s : Reader), s.cursor.items = mid → s.scopes = r.scopes →
      Takes (arguments n name (state.add v)) s b rest) (n : Nat) :
    Takes (arguments n name state) r b rest := by
  cases n with
  | zero =>
      rw [arguments_zero]
      exact .exhausted
  | succ n =>
      have hparen : (t.type == .closeParen) = false := by
        cases htype : t.type <;> simp_all [TokenType.isCloser]
      have hcomma : (t.type == .comma) = false := by
        simpa using hcomma
      rw [arguments]
      refine .peek ?_
      simp only [hfront, Value.hasType, hparen, hcomma, Bool.false_eq_true, if_false]
      refine (hvalue n).bind fun s hitems hscopes => ?_
      have hadd : state.add v = state.push v := by simp [CallState.add, hv]
      have hrest := hnext n s hitems hscopes
      rw [hadd] at hrest
      exact hrest

theorem scan_opener {t : Token} {closer : TokenType} (hfront : r.cursor.peek 0 = some (.token t))
    (hcloser : t.type.partner? = some closer) :
    scan Scan.opener r = .ok (t, closer) { r with cursor := r.cursor.next.2 } := by
  have htoken : r.cursor.peekToken 0 = some t := by
    simp [Cursor.peekToken, hfront]
  simp [scan, Scan.opener, Scan.look, Scan.next, bind, EStateM.bind, pure, EStateM.pure, htoken,
    hcloser]

theorem takes_block_of {opener closer : Token} {inner : List Token} {us : List Value}
    {lead rest : List Item} (hpartner : opener.type.partner? = some closer.type)
    (hinner : Regroups inner us) (hgrouped : ∀ v ∈ us, v.firstToken.type.isCloser = false)
    (hlead : Item.Blank lead)
    (hitems : r.cursor.items =
      lead ++ .value (.token opener) :: (tokenItems inner ++ .value (.token closer) :: rest))
    (n : Nat) :
    Takes (block n) r ⟨opener, us, some closer⟩ rest := by
  have hcloser := TokenType.isCloser_of_partner? hpartner
  cases n with
  | zero =>
      rw [block_zero]
      exact .exhausted
  | succ n =>
      have hfront := Cursor.peek_of_blank hlead hitems
      have hopener : Takes (scan Scan.opener) r (opener, closer.type)
          (tokenItems inner ++ .value (.token closer) :: rest) :=
        .inr ⟨{ r with cursor := r.cursor.next.2 }, scan_opener hfront hpartner,
          Cursor.items_next_of_blank hlead hitems, rfl⟩
      rw [block]
      refine hopener.bind fun s hs _ => .nested fun t ht _ => .inScope fun u hu _ => ?_
      have hitems' : u.cursor.items = tokenItems inner ++ .value (.token closer) :: rest := by
        rw [hu, ht, hs]
      refine hinner.collect (fun v hv => skips_blockEnd hcloser (hgrouped v hv)) ?_ hitems' ?_ n
      · intro v hv
        cases hv
        cases htype : closer.type <;> simp_all [Value.hasType, TokenType.isCloser]
      · intro n w hw _
        cases n with
        | zero =>
            rw [collect_zero]
            exact .exhausted
        | succ n =>
            have hend : w.cursor.peek 0 = some (.token closer) :=
              Cursor.peek_of_blank Item.blank_nil hw
            have hnext : Takes next w (some (.token closer)) rest :=
              takes_next Item.blank_nil hw
            have hclosed : Takes (blockEnd opener closer.type (us.reverse ++ [])) w
                (some ⟨opener, us, some closer⟩) rest := by
              unfold blockEnd
              refine .peek ?_
              simp only [hend, Value.hasType, beq_self_eq_true, if_true, List.append_nil,
                List.reverse_reverse]
              exact hnext.bind fun q hq _ => .pure hq
            rw [collect]
            exact hclosed.bind fun q hq _ => .pure hq

theorem takes_call_of {name closer : Token} {inner : List Token} {us : List Value}
    {lead rest : List Item} (hname : name.type = .function) (hparen : closer.type = .closeParen)
    (hinner : Regroups inner us) (hlead : Item.Blank lead)
    (hitems : r.cursor.items =
      lead ++ .value (.token name) :: (tokenItems inner ++ .value (.token closer) :: rest))
    (n : Nat) :
    Takes (call n) r ((us.foldl CallState.add {}).close name (some closer)) rest := by
  cases n with
  | zero =>
      rw [call_zero]
      exact .exhausted
  | succ n =>
      have hfront := Cursor.peek_of_blank hlead hitems
      have htoken : r.cursor.peekToken 0 = some name := by
        simp [Cursor.peekToken, hfront]
      have hconsume : Takes (scan (Scan.consume .function "Expected function")) r name
          (tokenItems inner ++ .value (.token closer) :: rest) := by
        refine .inr ⟨{ r with cursor := r.cursor.next.2 }, ?_,
          Cursor.items_next_of_blank hlead hitems, rfl⟩
        simp [scan, Scan.consume, htoken, hname]
      rw [call]
      refine hconsume.bind fun s hs _ => .nested fun t ht _ => ?_
      have hitems' : t.cursor.items = tokenItems inner ++ .value (.token closer) :: rest := by
        rw [ht, hs]
      refine hinner.arguments ?_ hitems' ?_ n
      · intro v hv
        cases hv
        simp [Value.hasType, hparen]
      · intro n w hw _
        cases n with
        | zero =>
            rw [arguments_zero]
            exact .exhausted
        | succ n =>
            have hend : w.cursor.peek 0 = some (.token closer) :=
              Cursor.peek_of_blank Item.blank_nil hw
            rw [arguments]
            refine .peek ?_
            simp only [hend, Value.hasType, hparen, beq_self_eq_true, if_true]
            exact (takes_next Item.blank_nil hw).bind fun q hq _ => .pure hq

/-- A bracket at the front is read as a block. -/
theorem takes_value_of_block {opener : Token} {b : Block} {rest : List Item}
    (hfront : r.cursor.peek 0 = some (.token opener)) (hopener : opener.type.isOpener = true)
    (h : ∀ n, Takes (block n) r b rest) (n : Nat) :
    Takes (value n) r (some b.toValue) rest := by
  cases n with
  | zero =>
      rw [value_zero]
      exact .exhausted
  | succ n =>
      rw [value]
      refine .peek ?_
      simp only [hfront, hopener, if_true]
      exact (h n).bind fun s hs _ => .pure hs

/-- A function at the front is read as a call. -/
theorem takes_value_of_call {name : Token} {c : Call} {rest : List Item}
    (hfront : r.cursor.peek 0 = some (.token name)) (hname : name.type = .function)
    (h : ∀ n, Takes (call n) r c rest) (n : Nat) :
    Takes (value n) r (some c.toValue) rest := by
  cases n with
  | zero =>
      rw [value_zero]
      exact .exhausted
  | succ n =>
      rw [value]
      refine .peek ?_
      simp only [hfront, hname, if_true]
      exact (h n).bind fun s hs _ => .pure hs

theorem isOpener_of_partner? {type closer : TokenType} (h : type.partner? = some closer) :
    type.isOpener = true := by
  simp [TokenType.isOpener, h]

/-- One more group at the front of a list. -/
theorem Regroups.cons {opener closer : Token} {inner ts : List Token} {v : Value} {vs : List Value}
    (hfirst : v.firstToken = opener) (hopener : opener.type.isCloser = false)
    (hcomma : opener.type ≠ .comma) (hv : v.hasType .comma = false)
    (hvalue : ∀ {r : Reader} {rest : List Item}, r.cursor.items =
      .value (.token opener) :: (tokenItems inner ++ .value (.token closer) :: rest) →
        ∀ n, Takes (value n) r (some v) rest) (ih : Regroups ts vs) :
    Regroups (opener :: (inner ++ closer :: ts)) (v :: vs) := by
  have hsplit (rest : List Item) : tokenItems (opener :: (inner ++ closer :: ts)) ++ rest =
      .value (.token opener) ::
        (tokenItems inner ++ .value (.token closer) :: (tokenItems ts ++ rest)) := by
    simp [tokenItems]
  refine ⟨?_, ?_⟩
  · intro _ ending b rest rest' r read hskips hrest hitems hnext n
    rw [hsplit] at hitems
    have hskip := hskips v List.mem_cons_self
    rw [hfirst] at hskip
    refine takes_collect_step hitems hskip (hvalue hitems) ?_ n
    intro n s hs hscopes
    refine ih.collect (fun v hv => hskips v (List.mem_cons_of_mem _ hv)) hrest hs ?_ n
    intro n u hu hscopes'
    have hgo := hnext n u hu (hscopes'.trans hscopes)
    simpa using hgo
  · intro name b rest rest' r state hrest hitems hnext n
    rw [hsplit] at hitems
    have hfront := Cursor.peek_of_blank Item.blank_nil hitems
    refine takes_arguments_step hfront hopener hcomma hv (hvalue hitems) ?_ n
    intro n s hs hscopes
    refine ih.arguments hrest hs ?_ n
    exact fun n u hu hscopes' => hnext n u hu (hscopes'.trans hscopes)

/-- Reading groups the tokens into the values that they make up. -/
theorem regroups {ts : List Token} {vs : List Value} (h : Grouped ts vs) :
    Regroups ts vs := by
  induction h with
  | nil =>
      refine ⟨?_, ?_⟩
      · intro _ _ _ _ _ r _ _ _ hitems hnext n
        exact hnext n r hitems rfl
      · intro _ _ _ _ r _ _ hitems hnext n
        exact hnext n r hitems rfl
  | @single t ts vs ht hvar hgrouped ih =>
      have hsecond {rest : List Item} (hrest : ∀ v ∈ Item.first? rest, v.hasType .ident = false) :
          t.isDelim "$" = true →
            ∀ v ∈ Item.first? (tokenItems ts ++ rest), v.hasType .ident = false := by
        intro hdollar v hv
        cases ts with
        | nil => exact hrest v hv
        | cons u us =>
            cases hv
            have hu := hvar hdollar u rfl
            simpa [Value.hasType] using hu
      refine ⟨?_, ?_⟩
      · intro _ ending b rest rest' r read hskips hrest hitems hnext n
        refine takes_collect_step hitems (hskips _ List.mem_cons_self)
          (takes_single ht Item.blank_nil hitems (hsecond hrest)) ?_ n
        intro n s hs hscopes
        refine ih.collect (fun v hv => hskips v (List.mem_cons_of_mem _ hv)) hrest hs ?_ n
        intro n u hu hscopes'
        have hgo := hnext n u hu (hscopes'.trans hscopes)
        simpa using hgo
      · intro name b rest rest' r state hrest hitems hnext n
        have hfront := Cursor.peek_of_blank Item.blank_nil hitems
        have hgo {n : Nat} {s : Reader} (hs : s.cursor.items = tokenItems ts ++ rest)
            (hscopes : s.scopes = r.scopes) :
            Takes (arguments n name (state.add (.token t))) s b rest' := by
          refine ih.arguments hrest hs ?_ n
          exact fun n u hu hscopes' => hnext n u hu (hscopes'.trans hscopes)
        by_cases hcomma : t.type = .comma
        · cases n with
          | zero =>
              rw [arguments_zero]
              exact .exhausted
          | succ n =>
              rw [arguments]
              refine .peek ?_
              simp only [hfront, Value.hasType, hcomma]
              refine (takes_next Item.blank_nil hitems).bind fun s hs hscopes => ?_
              have hadd : state.add (.token t) = state.separate t := by
                simp [CallState.add, Value.hasType, hcomma, Value.witness]
              have hrest := hgo (n := n) hs hscopes
              rw [hadd] at hrest
              exact hrest
        · refine takes_arguments_step hfront ht.closes hcomma (by simpa [Value.hasType] using hcomma)
            (takes_single ht Item.blank_nil hitems (hsecond hrest)) ?_ n
          exact fun n s hs hscopes => hgo hs hscopes
  | @block opener closer inner ts us vs hpartner hinner _ ihinner ih =>
      have hopener := isOpener_of_partner? hpartner
      refine .cons rfl ?_ ?_ rfl ?_ ih
      · exact TokenType.isCloser_of_opens (TokenType.closer?_of_partner? hpartner)
      · intro htype
        simp [htype, TokenType.partner?] at hpartner
      · intro r rest hitems n
        have hfront := Cursor.peek_of_blank Item.blank_nil hitems
        exact takes_value_of_block hfront hopener (takes_block_of hpartner ihinner
          hinner.firstToken_not_closer Item.blank_nil hitems) n
  | @call name closer inner ts us vs hname hparen hinner _ ihinner ih =>
      refine .cons rfl ?_ ?_ rfl ?_ ih
      · rw [hname]
        rfl
      · rw [hname]
        decide
      · intro r rest hitems n
        have hfront := Cursor.peek_of_blank Item.blank_nil hitems
        exact takes_value_of_call hfront hname
          (takes_call_of hname hparen ihinner Item.blank_nil hitems) n

/-! ## Flat blocks -/

section Flat

variable {opener : Token} {closer : TokenType} {due : List TokenType} {read : List Value}

theorem scan_rawContents_some {v : Value} (hfront : r.cursor.peek 0 = some v) (n : Nat) :
    scan (Scan.rawContents opener closer (n + 1) due read) r =
      match v with
      | .token t =>
        if due = [] ∧ t.type = closer then
          .ok ⟨opener, read.reverse, some t⟩ { r with cursor := r.cursor.next.2 }
        else
          scan (Scan.rawContents opener closer n (Scan.dueAfter t due) (.token t :: read))
            { r with cursor := r.cursor.next.2 }
      | v =>
        scan (Scan.rawContents opener closer n due (v :: read))
          { r with cursor := r.cursor.next.2 } := by
  have hfirst : r.cursor.next.1 = some v := by
    rw [Cursor.next_fst, ← hfront, Cursor.peek_eq_getElem?, List.head?_eq_getElem?]
  have hrun {f : Option Value → Scan Block} :
      (Scan.next >>= f) r.cursor = f (some v) r.cursor.next.2 := by
    rw [← hfirst]
    rfl
  unfold scan
  rw [Scan.rawContents, hrun]
  cases v with
  | token t =>
      by_cases hclose : due = [] ∧ t.type = closer
      · simp only [hclose, and_self, if_true]
        rfl
      · simp only [hclose, if_false]
  | _ => rfl

theorem scan_rawContents_none (hfront : r.cursor.peek 0 = none) (n : Nat) :
    scan (Scan.rawContents opener closer (n + 1) due read) r =
      .ok ⟨opener, read.reverse, none⟩ { r with cursor := r.cursor.next.2 } := by
  have hfirst : r.cursor.next.1 = none := by
    rw [Cursor.next_fst, ← hfront, Cursor.peek_eq_getElem?, List.head?_eq_getElem?]
  have hrun {f : Option Value → Scan Block} :
      (Scan.next >>= f) r.cursor = f none r.cursor.next.2 := by
    rw [← hfirst]
    rfl
  unfold scan
  rw [Scan.rawContents, hrun]
  rfl

theorem dueAfter_single {t : Token} (ht : t.IsSingle) (hdue : ∀ type ∈ due, type.isCloser = true) :
    Scan.dueAfter t due = due := by
  have hhead : due.head? ≠ some t.type := by
    intro hhead
    have hcloses := hdue _ (List.mem_of_mem_head? hhead)
    rw [ht.closes] at hcloses
    cases hcloses
  simp [Scan.dueAfter, ht.opens, hhead]

/-- Balanced tokens are taken into the contents, and no closer is due behind them that was not due
before. -/
theorem scan_rawContents_balanced (hcloser : closer.isCloser = true) {ts : List Token}
    (hts : BracketBalanced ts) {lead rest : List Item} (hlead : Item.Blank lead)
    (hfirst : lead = [] ∨ ts ≠ []) (hdue : ∀ type ∈ due, type.isCloser = true)
    (hitems : r.cursor.items = lead ++ (tokenItems ts ++ rest)) :
    ∃ s, s.cursor.items = rest ∧ s.scopes = r.scopes ∧
      ∀ opener n read, scan (Scan.rawContents opener closer (ts.length + n) due read) r =
        scan (Scan.rawContents opener closer n due ((ts.map Value.token).reverse ++ read)) s := by
  induction hts generalizing r lead rest due with
  | nil =>
      rcases hfirst with rfl | hne
      · exact ⟨r, hitems, rfl, fun opener n read => by simp⟩
      · exact (hne rfl).elim
  | @single t ts ht _ ih =>
      have hfront := Cursor.peek_of_blank hlead hitems
      have hnext := Cursor.items_next_of_blank hlead hitems
      obtain ⟨s, hs, hscopes, hrun⟩ :=
        ih (r := { r with cursor := r.cursor.next.2 }) Item.blank_nil (.inl rfl) hdue hnext
      refine ⟨s, hs, hscopes, fun opener n read => ?_⟩
      have hmore : ¬ (due = [] ∧ t.type = closer) := by
        rintro ⟨_, rfl⟩
        rw [ht.closes] at hcloser
        cases hcloser
      have hlength : (t :: ts).length + n = ts.length + n + 1 := by
        simp only [List.length_cons]
        omega
      rw [hlength, scan_rawContents_some hfront]
      simp only [if_neg hmore, dueAfter_single ht hdue]
      rw [hrun]
      simp
  | @group o c inner ts hopener _ _ ihinner ih =>
      have hc := TokenType.isCloser_of_closer? hopener
      have hsplit : tokenItems (o :: (inner ++ c :: ts)) ++ rest =
          .value (.token o) :: (tokenItems inner ++ .value (.token c) :: (tokenItems ts ++ rest)) := by
        simp [tokenItems]
      rw [hsplit] at hitems
      have hfront := Cursor.peek_of_blank hlead hitems
      have hnext := Cursor.items_next_of_blank hlead hitems
      have hdue' : ∀ type ∈ c.type :: due, type.isCloser = true := by
        intro type htype
        rcases List.mem_cons.mp htype with rfl | htype
        · exact hc
        · exact hdue type htype
      obtain ⟨s, hs, hscopes, hrun⟩ :=
        ihinner (r := { r with cursor := r.cursor.next.2 }) Item.blank_nil (.inl rfl) hdue' hnext
      have hfront' := Cursor.peek_of_blank Item.blank_nil hs
      have hnext' := Cursor.items_next_of_blank Item.blank_nil hs
      obtain ⟨w, hw, hwscopes, hrun'⟩ :=
        ih (r := { s with cursor := s.cursor.next.2 }) Item.blank_nil (.inl rfl) hdue hnext'
      refine ⟨w, hw, hwscopes.trans hscopes, fun opener n read => ?_⟩
      have hmore : ¬ (due = [] ∧ o.type = closer) := by
        rintro ⟨_, rfl⟩
        rw [TokenType.closer?_of_isCloser hcloser] at hopener
        cases hopener
      have hafter : Scan.dueAfter o due = c.type :: due := by
        simp [Scan.dueAfter, hopener]
      have hback : Scan.dueAfter c (c.type :: due) = due := by
        simp [Scan.dueAfter, TokenType.closer?_of_isCloser hc]
      have hlength : (o :: (inner ++ c :: ts)).length + n =
          inner.length + (ts.length + n + 1) + 1 := by
        simp only [List.length_cons, List.length_append]
        omega
      rw [hlength, scan_rawContents_some hfront]
      simp only [if_neg hmore, hafter]
      rw [hrun, scan_rawContents_some hfront']
      have hopen : ¬ (c.type :: due = [] ∧ c.type = closer) := fun h => nomatch h.1
      simp only [if_neg hopen, hback]
      rw [hrun']
      simp

/-- A flat block is read behind its opener. -/
theorem scan_rawBlock {t : Token} (hfront : r.cursor.peek 0 = some (.token t))
    (hcloser : t.type.partner? = some closer) :
    scan Scan.rawBlock r =
      scan (Scan.rawContents t closer (r.cursor.next.2.items.length + 1) [] [])
        { r with cursor := r.cursor.next.2 } := by
  have hrun := scan_opener hfront hcloser
  unfold scan at hrun ⊢
  have hopener : Scan.opener r.cursor = .ok (t, closer) r.cursor.next.2 := by
    cases h : Scan.opener r.cursor with
    | ok a c =>
        rw [h] at hrun
        cases hrun
        rfl
    | error d c =>
        rw [h] at hrun
        cases hrun
  have hblock : Scan.rawBlock r.cursor =
      Scan.rawContents t closer (r.cursor.next.2.items.length + 1) [] [] r.cursor.next.2 := by
    change EStateM.bind Scan.opener _ r.cursor = _
    simp only [EStateM.bind, hopener]
    rfl
  rw [hblock]

/-- The flat block of balanced tokens. -/
theorem takes_rawBlock {opener closer : Token} {inner : List Token} {lead rest : List Item}
    (hpartner : opener.type.partner? = some closer.type) (hinner : BracketBalanced inner)
    (hlead : Item.Blank lead)
    (hitems : r.cursor.items =
      lead ++ .value (.token opener) :: (tokenItems inner ++ .value (.token closer) :: rest)) :
    Takes (scan Scan.rawBlock) r ⟨opener, inner.map .token, some closer⟩ rest := by
  have hfront := Cursor.peek_of_blank hlead hitems
  have hnext := Cursor.items_next_of_blank hlead hitems
  have hdue : ∀ type ∈ ([] : List TokenType), type.isCloser = true :=
    fun _ h => (List.not_mem_nil h).elim
  obtain ⟨s, hs, hscopes, hrun⟩ :=
    scan_rawContents_balanced (r := { r with cursor := r.cursor.next.2 })
      (TokenType.isCloser_of_partner? hpartner) hinner Item.blank_nil (.inl rfl) hdue hnext
  have hlength : r.cursor.next.2.items.length + 1 = inner.length + (rest.length + 1 + 1) := by
    rw [hnext]
    simp only [tokenItems, List.length_append, List.length_map, List.length_cons]
    omega
  refine .inr ⟨{ s with cursor := s.cursor.next.2 }, ?_,
    Cursor.items_next_of_blank Item.blank_nil hs, hscopes⟩
  rw [scan_rawBlock hfront hpartner, hlength, hrun,
    scan_rawContents_some (Cursor.peek_of_blank Item.blank_nil hs)]
  simp

end Flat
end Read
end Cascade

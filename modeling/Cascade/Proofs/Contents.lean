import Cascade.Proofs.Following
import Cascade.Proofs.SelfReference

/-!
# What is read up to a stop

Values are read up to a token that ends their list, or to the end of the input.  On
the way brackets and functions are grouped, whether their closers are there or not,
and variables are replaced by their values.  This is one function of what is left
to read and of the values of the variables; the loops over values compute it.

**Method.**  `Contents σ stop vs us closing rest` says that the values `vs` give the
contents `us` up to the token `closing`, which the list stops at, with `rest` behind
it.  `Gives x r a rest` says that the computation gives the result and goes on to the
rest, unless there is no room for one more block.  `ReadsContents` is the statement
about the two loops over values; it is proved along `Contents`.

**Results.**
* `Contents.ended_of_unclosed`: a list without a stop goes on to the end of the input.
* `exists_readsContents`: contents are read, with a budget that depends on them alone.
-/

namespace Cascade

/-! ## Contents -/

/-- A call with the values between its parentheses, which need not be closed. -/
def openCall (name : Token) (vs : List Value) (closing : Option Token) : Value :=
  ((vs.foldl Read.CallState.add {}).close name closing).toValue

/-- The value is a token where a list stops. -/
def Value.stopsAt (stop : Token → Bool) : Value → Bool
  | .token t => stop t
  | _ => false

/-- The values of the variables that are bound in the scopes. -/
def Scopes.Binds (s : Scopes) (σ : String → Option (List Value)) : Prop :=
  ∀ name values, σ name = some values →
    s.isParameter name = false ∧ s.findVariable? name = some values

theorem Scopes.Binds.none (s : Scopes) :
    s.Binds fun _ => none := by
  rintro name values ⟨⟩

theorem Scopes.Binds.single {s : Scopes} {x : String} {values : List Value}
    (hfree : s.isParameter x = false) (hfind : s.findVariable? x = some values) :
    s.Binds fun name => if name = x then some values else Option.none := by
  intro name values' hvalues'
  dsimp only at hvalues'
  split at hvalues'
  · next hname =>
      subst hname
      cases hvalues'
      exact ⟨hfree, hfind⟩
  · cases hvalues'

theorem Scopes.Binds.enter {s : Scopes} {σ : String → Option (List Value)} (h : s.Binds σ) :
    s.enter.Binds σ := by
  intro name values hvalues
  exact h name values hvalues

/-- The first values give the second ones, up to a token where the list stops, with the last values
behind it. -/
inductive Contents (σ : String → Option (List Value)) :
    (Token → Bool) → List Value → List Value → Option Token → List Value → Prop
  | ended {stop : Token → Bool} : Contents σ stop [] [] none []
  | stopped {stop : Token → Bool} {t : Token} {vs : List Value} :
      stop t = true → Contents σ stop (.token t :: vs) [] (some t) vs
  | single {stop : Token → Bool} {t : Token} {vs us rest : List Value} {closing : Option Token} :
      stop t = false → t.type.closer? = none →
      (t.isDelim "$" = true → ∀ v ∈ vs.head?, v.hasType .ident = false) →
      Contents σ stop vs us closing rest →
      Contents σ stop (.token t :: vs) (.token t :: us) closing rest
  | block {stop : Token → Bool} {opener : Token} {closer : TokenType}
      {vs inner mid us rest : List Value} {closing closing' : Option Token} :
      stop opener = false → opener.type.partner? = some closer →
      Contents σ (·.type == closer) vs inner closing mid → Contents σ stop mid us closing' rest →
      Contents σ stop (.token opener :: vs) (.block opener inner closing :: us) closing' rest
  | call {stop : Token → Bool} {name : Token} {vs inner mid us rest : List Value}
      {closing closing' : Option Token} :
      stop name = false → name.type = .function →
      Contents σ (·.type == .closeParen) vs inner closing mid → Contents σ stop mid us closing' rest →
      Contents σ stop (.token name :: vs) (openCall name inner closing :: us) closing' rest
  | group {stop : Token → Bool} {g : Value} {vs us rest : List Value} {closing : Option Token} :
      g.IsGroup → Contents σ stop vs us closing rest →
      Contents σ stop (g :: vs) (g :: us) closing rest
  | use {stop : Token → Bool} {dollar name : Token} {values vs us rest : List Value}
      {closing : Option Token} :
      stop dollar = false → dollar.isDelim "$" = true → name.type = .ident →
      σ name.text = some values →
      (∀ v ∈ (vs.dropWhile Value.isWhitespace).head?, v.isDefinitionSign = false) →
      Contents σ stop (values ++ vs) us closing rest →
      Contents σ stop (.token dollar :: .token name :: vs) us closing rest

section Contents

variable {σ : String → Option (List Value)} {stop : Token → Bool} {vs us rest : List Value}
  {closing : Option Token}

/-- Without a token to stop at the list goes on to the end. -/
theorem Contents.ended_of_unclosed (h : Contents σ stop vs us none rest) :
    rest = [] := by
  generalize hclosing : none = closing at h
  induction h with
  | ended => rfl
  | stopped _ => cases hclosing
  | single _ _ _ _ ih => exact ih hclosing
  | block _ _ _ _ _ ih => exact ih hclosing
  | call _ _ _ _ _ ih => exact ih hclosing
  | group _ _ ih => exact ih hclosing
  | use _ _ _ _ _ _ ih => exact ih hclosing

/-- The list stops where it may. -/
theorem Contents.stop_closing {t : Token} (h : Contents σ stop vs us (some t) rest) :
    stop t = true := by
  generalize hclosing : some t = closing at h
  induction h with
  | ended => cases hclosing
  | stopped hstop =>
      cases hclosing
      exact hstop
  | single _ _ _ _ ih => exact ih hclosing
  | block _ _ _ _ _ ih => exact ih hclosing
  | call _ _ _ _ _ ih => exact ih hclosing
  | group _ _ ih => exact ih hclosing
  | use _ _ _ _ _ _ ih => exact ih hclosing

/-- At the end of the input there are no contents. -/
theorem Contents.of_nil (h : Contents σ stop [] us closing rest) :
    us = [] ∧ closing = none ∧ rest = [] := by
  cases h
  exact ⟨rfl, rfl, rfl⟩

end Contents

theorem token_not_isGroup {t : Token} :
    ¬ (Value.token t).IsGroup := by
  rintro (h | h) <;> cases h

/-! ## Tokens that values denote -/

/-- The values denote the tokens: some groups are already made, and some variables are yet to be
replaced by their values. -/
inductive Denotes (σ : String → Option (List Value)) : List Value → List Token → Prop
  | nil : Denotes σ [] []
  | token {t : Token} {vs : List Value} {ts : List Token} :
      (t.isDelim "$" = true → ∀ v ∈ vs.head?, v.hasType .ident = false) →
      (t.isDelim "$" = true → ∀ u ∈ ts.head?, u.type ≠ .ident) → Denotes σ vs ts →
      Denotes σ (.token t :: vs) (t :: ts)
  | group {g : Value} {gs ts : List Token} {vs : List Value} :
      RawGroup g gs → Denotes σ vs ts → Denotes σ (g :: vs) (gs ++ ts)
  | use {dollar name : Token} {values vs : List Value} {ts : List Token} :
      dollar.isDelim "$" = true → name.type = .ident → σ name.text = some values →
      (∀ v ∈ (vs.dropWhile Value.isWhitespace).head?, v.isDefinitionSign = false) →
      Denotes σ (values ++ vs) ts → Denotes σ (.token dollar :: .token name :: vs) ts

/-- Tokens denote themselves where no dollar sign is before a name. -/
theorem Denotes.tokens {σ : String → Option (List Value)} {ts : List Token} (h : NoVariable ts) :
    Denotes σ (ts.map .token) ts := by
  induction ts with
  | nil => exact .nil
  | cons t ts ih =>
      have hsecond : t.isDelim "$" = true → ∀ u ∈ ts.head?, u.type ≠ .ident := by
        intro hdollar u hu
        cases ts with
        | nil => cases hu
        | cons w ws =>
            cases hu
            exact (List.isChain_cons_cons.mp h).1 hdollar
      refine .token ?_ hsecond (ih h.tail)
      intro hdollar v hv
      rw [List.head?_map] at hv
      obtain ⟨u, hu, rfl⟩ := Option.mem_map.mp hv
      simpa [Value.hasType] using hsecond hdollar u hu

/-- A list does not stop at a token that opens a group, and not at a dollar sign. -/
structure StopsOutside (stop : Token → Bool) : Prop where
  opens : ∀ {t : Token} {closer : TokenType}, t.type.closer? = some closer → stop t = false
  dollar : ∀ {t : Token}, t.isDelim "$" = true → stop t = false

/-- A list stops only at closers. -/
def StopsAtClosers (stop : Token → Bool) : Prop :=
  ∀ t : Token, t.type.isCloser = false → stop t = false

theorem stopsAtClosers_closer {closer : TokenType} (h : closer.isCloser = true) :
    StopsAtClosers (·.type == closer) := by
  intro t ht
  refine beq_eq_false_iff_ne.mpr fun htype => ?_
  rw [htype, h] at ht
  cases ht

theorem StopsAtClosers.stopsOutside {stop : Token → Bool} (h : StopsAtClosers stop) :
    StopsOutside stop where
  opens hopens := h _ (TokenType.isCloser_of_opens hopens)
  dollar := by
    intro t ht
    exact h t (by rw [(Token.isDelim_iff.mp ht).1]; rfl)

/-- Tokens whose brackets match are taken into the contents of what ends at a closer. -/
theorem Grouped.contents {σ : String → Option (List Value)} {ts : List Token} {vs : List Value}
    (h : Grouped ts vs) {stop : Token → Bool} (hstop : StopsAtClosers stop) {ts' : List Token}
    {us rest : List Value} {closing : Option Token} (hfirst : ∀ u ∈ ts'.head?, u.type ≠ .ident)
    (hrest : Contents σ stop (ts'.map .token) us closing rest) :
    Contents σ stop ((ts ++ ts').map .token) (vs ++ us) closing rest := by
  have hnoIdent {closer : Token} (h : closer.type.isCloser = true) {ts : List Token} :
      ∀ u ∈ (closer :: ts).head?, u.type ≠ .ident := by
    rintro _ ⟨⟩ htype
    rw [htype] at h
    cases h
  induction h generalizing stop ts' us closing rest with
  | nil => exact hrest
  | @single t ts vs ht hvar _ ih =>
      refine .single (hstop t ht.closes) ht.opens ?_ (ih hstop hfirst hrest)
      intro hdollar v hv
      rw [List.head?_map] at hv
      obtain ⟨u, hu, rfl⟩ := Option.mem_map.mp hv
      have hident : u.type ≠ .ident := by
        cases ts with
        | nil => exact hfirst u hu
        | cons w ws => exact hvar hdollar u hu
      simpa [Value.hasType] using hident
  | @block opener closer inner ts vs ws hpartner _ _ ihinner ih =>
      have hclose := TokenType.isCloser_of_partner? hpartner
      have hend : Contents σ (·.type == closer.type) ((closer :: (ts ++ ts')).map .token) []
          (some closer) ((ts ++ ts').map .token) := .stopped (beq_self_eq_true closer.type)
      have hinner := ihinner (stopsAtClosers_closer hclose) (hnoIdent hclose) hend
      have hopener := hstop.stopsOutside.opens (TokenType.closer?_of_partner? hpartner)
      simpa using Contents.block hopener hpartner hinner (ih hstop hfirst hrest)
  | @call name closer inner ts vs ws hname hparen _ _ ihinner ih =>
      have hclose : closer.type.isCloser = true := by
        rw [hparen]
        rfl
      have hend : Contents σ (·.type == .closeParen) ((closer :: (ts ++ ts')).map .token) []
          (some closer) ((ts ++ ts').map .token) := .stopped (beq_iff_eq.mpr hparen)
      have hinner := ihinner (stopsAtClosers_closer rfl) (hnoIdent hclose) hend
      have hopener : stop name = false := hstop.stopsOutside.opens (by rw [hname]; rfl)
      simpa [callOf, openCall] using Contents.call hopener hname hinner (ih hstop hfirst hrest)

/-- What denotes tokens has the contents of the tokens, and what is left denotes what is left of
the tokens. -/
theorem exists_contents {σ : String → Option (List Value)} {vs : List Value} {ts : List Token}
    (h : Denotes σ vs ts) {stop : Token → Bool} (hstop : StopsOutside stop) :
    ∃ us closing rest rest', Contents σ stop vs us closing rest ∧
      Contents (fun _ => none) stop (ts.map .token) us closing (rest'.map .token) ∧
      Denotes σ rest rest' ∧ rest'.length ≤ ts.length := by
  induction hn : ts.length using Nat.strong_induction_on generalizing vs ts stop with
  | _ n ihn =>
  subst hn
  -- A variable takes nothing from the tokens; all else is followed by fewer of them.
  induction h with
  | nil => exact ⟨_, _, _, [], .ended, .ended, .nil, le_rfl⟩
  | @token t vs ts hvar hvar' h _ =>
      by_cases ht : stop t = true
      · exact ⟨_, _, _, ts, .stopped ht, .stopped ht, h, Nat.le_succ _⟩
      · have ht : stop t = false := by simpa using ht
        cases hopens : t.type.closer? with
        | none =>
            obtain ⟨us, closing, rest, rest', hus, hus', hrest, hle⟩ :=
              ihn _ (Nat.lt_succ_self _) h hstop rfl
            refine ⟨_, _, _, rest', .single ht hopens hvar hus, .single ht hopens ?_ hus', hrest,
              Nat.le_succ_of_le hle⟩
            intro hdollar v hv
            rw [List.head?_map] at hv
            obtain ⟨u, hu, rfl⟩ := Option.mem_map.mp hv
            simpa [Value.hasType] using hvar' hdollar u hu
        | some closer =>
            have hclose := TokenType.isCloser_of_closer? hopens
            obtain ⟨inner, closing, mid, mid', hinner, hinner', hmid, hle⟩ :=
              ihn _ (Nat.lt_succ_self _) h (stopsAtClosers_closer hclose).stopsOutside rfl
            obtain ⟨us, closing', rest, rest', hus, hus', hrest, hle'⟩ :=
              ihn _ (Nat.lt_succ_of_le hle) hmid hstop rfl
            have hle : rest'.length ≤ (t :: ts).length := Nat.le_succ_of_le (hle'.trans hle)
            rcases TokenType.closer?_cases hopens with hpartner | ⟨hname, rfl⟩
            · exact ⟨_, _, _, rest', .block ht hpartner hinner hus, .block ht hpartner hinner' hus',
                hrest, hle⟩
            · exact ⟨_, _, _, rest', .call ht hname hinner hus, .call ht hname hinner' hus', hrest, hle⟩
  | @group g gs ts vs hraw h _ =>
      have hlt : ts.length < (gs ++ ts).length := by
        obtain ⟨opener, inner, rfl, _⟩ := hraw.exists_opener
        simp only [List.cons_append, List.length_cons, List.length_append]
        omega
      obtain ⟨us, closing, rest, rest', hus, hus', hrest, hle⟩ := ihn _ hlt h hstop rfl
      refine ⟨_, _, _, rest', .group hraw.isGroup hus, ?_, hrest, hle.trans hlt.le⟩
      have hclosed {closer : Token} (hclose : closer.type.isCloser = true) {inner : List Token}
          {ws : List Value} (hinner : Grouped inner ws) {type : TokenType} (htype : closer.type = type) :
          Contents (fun _ => none) (·.type == type) ((inner ++ closer :: ts).map .token) (ws ++ [])
            (some closer) (ts.map .token) := by
        subst htype
        refine hinner.contents (stopsAtClosers_closer hclose) ?_ (.stopped (beq_self_eq_true _))
        rintro _ ⟨⟩ hident
        rw [hident] at hclose
        cases hclose
      cases hraw with
      | @block opener closer inner ws hpartner hinner =>
          have hopener := hstop.opens (TokenType.closer?_of_partner? hpartner)
          have hclosed := hclosed (TokenType.isCloser_of_partner? hpartner) hinner rfl
          simpa using Contents.block hopener hpartner hclosed hus'
      | @call name closer inner ws hname hparen hinner =>
          have hopener : stop name = false := hstop.opens (by rw [hname]; rfl)
          have hclosed := hclosed (by rw [hparen]; rfl) hinner hparen
          simpa [callOf, openCall] using Contents.call hopener hname hclosed hus'
  | use hdollar hname hvalues hsign _ ih =>
      obtain ⟨us, closing, rest, rest', hus, hus', hrest, hle⟩ := ih ihn
      exact ⟨us, closing, rest, rest',
        .use (hstop.dollar hdollar) hdollar hname hvalues hsign hus, hus', hrest, hle⟩

namespace Read

variable {α β : Type} {r : Reader} {σ : String → Option (List Value)}

/-! ## Computations that only want for room -/

/-- There is no room for one more block. -/
def WantsRoom (x : Read α) (r : Reader) : Prop :=
  ∃ (c : Cursor) (s : Reader),
    x r = .error (.fault (c.faultAt 0 (.nestingLimit r.limits.nestingDepth))) s

/-- The computation gives the result, goes on to the rest and leaves the scopes alone, unless there is
no room for one more block. -/
def Gives (x : Read α) (r : Reader) (a : α) (rest : List Value) : Prop :=
  WantsRoom x r ∨
    ∃ s, x r = .ok a s ∧ s.cursor.items = rest.map .value ∧ s.scopes = r.scopes ∧ s.limits = r.limits

namespace Gives

theorem pure {a : α} {rest : List Value} (h : r.cursor.items = rest.map .value) :
    Gives (Pure.pure a) r a rest :=
  .inr ⟨r, rfl, h, rfl, rfl⟩

theorem bind {x : Read α} {f : α → Read β} {a : α} {b : β} {mid rest : List Value}
    (hx : Gives x r a mid)
    (hf : ∀ s : Reader, s.cursor.items = mid.map .value → s.scopes = r.scopes → Gives (f a) s b rest) :
    Gives (x >>= f) r b rest := by
  rcases hx with ⟨c, s, hrun⟩ | ⟨s, hrun, hitems, hscopes, hlimits⟩
  · exact .inl ⟨c, s, bind_error hrun⟩
  · rcases hf s hitems hscopes with ⟨c, t, hrun'⟩ | ⟨t, hrun', hitems', hscopes', hlimits'⟩
    · rw [hlimits] at hrun'
      exact .inl ⟨c, t, (bind_ok hrun).trans hrun'⟩
    · exact .inr ⟨t, (bind_ok hrun).trans hrun', hitems', hscopes'.trans hscopes,
        hlimits'.trans hlimits⟩

theorem of_run {x y : Read α} {a : α} {rest : List Value} (hrun : x r = y r) (h : Gives y r a rest) :
    Gives x r a rest := by
  unfold Gives WantsRoom
  rw [hrun]
  exact h

theorem peek {f : Cursor → α} {g : α → Read β} {b : β} {rest : List Value}
    (h : Gives (g (f r.cursor)) r b rest) :
    Gives (Read.peek f >>= g) r b rest :=
  h

theorem nested {x : Read α} {a : α} {rest : List Value}
    (h : ∀ s : Reader, s.cursor = r.cursor → s.scopes = r.scopes → Gives x s a rest) :
    Gives (nested x) r a rest := by
  by_cases hroom : r.nesting < r.limits.nestingDepth
  · have hx := h { r with nesting := r.nesting + 1, deepest := max r.deepest (r.nesting + 1) } rfl rfl
    rcases hx with ⟨c, s, hrun⟩ | ⟨s, hrun, hitems, hscopes, hlimits⟩
    · exact .inl ⟨c, _, (nested_of_lt hroom).trans (andFinally_error hrun)⟩
    · exact .inr ⟨_, (nested_of_lt hroom).trans (andFinally_ok hrun), hitems, hscopes, hlimits⟩
  · exact .inl ⟨r.cursor, r, nested_of_le (Int.not_lt.mp hroom)⟩

theorem inScope {x : Read α} {a : α} {rest : List Value}
    (h : ∀ s : Reader, s.cursor = r.cursor → s.scopes = r.scopes.enter → Gives x s a rest) :
    Gives (inScope x) r a rest := by
  rcases h { r with scopes := r.scopes.enter } rfl rfl with
    ⟨c, s, hrun⟩ | ⟨s, hrun, hitems, hscopes, hlimits⟩
  · exact .inl ⟨c, _, inScope_run.trans (andFinally_error hrun)⟩
  · refine .inr ⟨_, inScope_run.trans (andFinally_ok hrun), hitems, ?_, hlimits⟩
    simp only [hscopes]
    rfl

theorem next {v : Value} {rest : List Value} (hitems : r.cursor.items = (v :: rest).map .value) :
    Gives Read.next r (some v) rest :=
  .inr ⟨_, next_of_peek (Cursor.peek_of_blank Item.blank_nil hitems),
    Cursor.items_next_of_blank Item.blank_nil hitems, rfl, rfl⟩

end Gives

/-! ## Loops over values -/

/-- The end of a list is at the end of the input or at a token where the list stops, and what it makes
of the list depends on the collected values and that token. -/
structure EndsAt (stop : Token → Bool) (ending : List Value → Read (Option β))
    (result : List Value → Option Token → β) : Prop where
  ended : ∀ {r : Reader} (read : List Value), r.cursor.items = [] →
    Gives (ending read) r (some (result read none)) []
  stopped : ∀ {r : Reader} {t : Token} {vs : List Value} (read : List Value),
    r.cursor.items = (.token t :: vs).map .value → stop t = true →
    Gives (ending read) r (some (result read (some t))) vs
  goesOn : ∀ {r : Reader} {v : Value} {vs : List Value} (read : List Value),
    r.cursor.items = (v :: vs).map .value → v.stopsAt stop = false → ending read r = .ok none r

/-- The contents are read by both loops over values. -/
structure ReadsContents (σ : String → Option (List Value)) (stop : Token → Bool)
    (vs us : List Value) (closing : Option Token) (rest : List Value) (bound : Nat) : Prop where
  collect : ∀ {β : Type} {ending : List Value → Read (Option β)}
    {result : List Value → Option Token → β}, EndsAt stop ending result →
    ∀ {r : Reader} {n : Nat} (read : List Value), bound ≤ n → r.scopes.Binds σ →
      r.cursor.items = vs.map .value →
      Gives (collect n ending read) r (result (us.reverse ++ read) closing) rest
  arguments : (∀ t, stop t = (t.type == .closeParen)) →
    ∀ {r : Reader} {n : Nat} (name : Token) (state : CallState), bound ≤ n → r.scopes.Binds σ →
      r.cursor.items = vs.map .value →
      Gives (arguments n name state) r ((us.foldl CallState.add state).close name closing) rest

theorem items_of_tokens (ts : List Token) :
    tokenItems ts = (ts.map .token).map .value := by
  rw [tokenItems, List.map_map]
  rfl

theorem peek_of_items_nil (hitems : r.cursor.items = []) :
    r.cursor.peek 0 = none := by
  rw [Cursor.peek, hitems]
  rfl

theorem peek_of_items_cons {v : Value} {vs : List Value} (hitems : r.cursor.items = (v :: vs).map .value) :
    r.cursor.peek 0 = some v :=
  Cursor.peek_of_blank Item.blank_nil hitems

theorem readsContents_ended {stop : Token → Bool} :
    ReadsContents σ stop [] [] none [] 1 := by
  refine ⟨?_, ?_⟩
  · intro β ending result hends r n read hn _ hitems
    obtain ⟨n, rfl⟩ := Nat.exists_eq_add_of_le' hn
    rw [collect]
    exact (hends.ended read hitems).bind fun s hs _ => .pure hs
  · intro _ r n name state hn _ hitems
    obtain ⟨n, rfl⟩ := Nat.exists_eq_add_of_le' hn
    rw [arguments]
    refine .peek ?_
    simp only [peek_of_items_nil hitems]
    exact .pure hitems

theorem readsContents_stopped {stop : Token → Bool} {t : Token} {vs : List Value}
    (hstop : stop t = true) :
    ReadsContents σ stop (.token t :: vs) [] (some t) vs 1 := by
  refine ⟨?_, ?_⟩
  · intro β ending result hends r n read hn _ hitems
    obtain ⟨n, rfl⟩ := Nat.exists_eq_add_of_le' hn
    rw [collect]
    exact (hends.stopped read hitems hstop).bind fun s hs _ => .pure hs
  · intro hparen r n name state hn _ hitems
    obtain ⟨n, rfl⟩ := Nat.exists_eq_add_of_le' hn
    rw [hparen] at hstop
    rw [arguments]
    refine .peek ?_
    simp only [peek_of_items_cons hitems, Value.hasType, hstop, if_true]
    exact (Gives.next hitems).bind fun s hs _ => .pure hs

/-- One value, or none, is read in front of contents. -/
theorem readsContents_step (v : Value) (found : Option Value) {stop : Token → Bool}
    {vs mid us rest : List Value} {closing : Option Token} {bound : Nat} (hstop : v.stopsAt stop = false)
    (hcomma : v.hasType .comma = true → found = some v ∧ mid = vs)
    (hfound : v.hasType .comma = false → ∀ u ∈ found, u.hasType .comma = false)
    (hvalue : ∀ {r : Reader} {n : Nat}, bound ≤ n → r.scopes.Binds σ →
      r.cursor.items = (v :: vs).map .value → Gives (value n) r found mid)
    (ih : ReadsContents σ stop mid us closing rest bound) :
    ReadsContents σ stop (v :: vs) (found.toList ++ us) closing rest (bound + 1) := by
  refine ⟨?_, ?_⟩
  · intro β ending result hends r n read hn hbinds hitems
    obtain ⟨n, rfl⟩ := Nat.exists_eq_add_of_le' (Nat.le_of_add_left_le hn)
    have hn : bound ≤ n := Nat.le_of_succ_le_succ hn
    rw [collect]
    refine .of_run (bind_ok (hends.goesOn read hitems hstop)) ?_
    refine (hvalue hn hbinds hitems).bind fun s hs hscopes => ?_
    have hrest (read : List Value) := ih.collect hends read hn (hscopes ▸ hbinds) hs
    cases found with
    | none => exact hrest read
    | some u => simpa using hrest (u :: read)
  · intro hparen r n name state hn hbinds hitems
    obtain ⟨n, rfl⟩ := Nat.exists_eq_add_of_le' (Nat.le_of_add_left_le hn)
    have hn : bound ≤ n := Nat.le_of_succ_le_succ hn
    have hopen : v.hasType .closeParen = false := by
      cases v with
      | token t => exact (hparen t).symm.trans hstop
      | _ => rfl
    rw [arguments]
    refine .peek ?_
    simp only [peek_of_items_cons hitems, hopen, Bool.false_eq_true, if_false]
    by_cases hv : v.hasType .comma = true
    · obtain ⟨rfl, rfl⟩ := hcomma hv
      simp only [hv, if_true]
      refine (Gives.next hitems).bind fun s hs hscopes => ?_
      have hadd : state.add v = state.separate v.witness := by simp [CallState.add, hv]
      have hrest := ih.arguments hparen name (state.add v) hn (hscopes ▸ hbinds) hs
      rw [hadd] at hrest
      simpa [hadd] using hrest
    · have hv : v.hasType .comma = false := by simpa using hv
      simp only [hv, Bool.false_eq_true, if_false]
      refine (hvalue hn hbinds hitems).bind fun s hs hscopes => ?_
      have hrest (state : CallState) := ih.arguments hparen name state hn (hscopes ▸ hbinds) hs
      cases found with
      | none => exact hrest state
      | some u =>
          have hadd : state.add u = state.push u := by
            simp [CallState.add, hfound hv u rfl]
          have hpush := hrest (state.push u)
          simpa [hadd] using hpush

/-! ## Values -/

section Values

variable {stop : Token → Bool} {vs us mid rest : List Value} {closing : Option Token} {bound n : Nat}

/-- More budget does no harm. -/
theorem ReadsContents.mono {bound' : Nat} (h : ReadsContents σ stop vs us closing rest bound)
    (hbound : bound ≤ bound') :
    ReadsContents σ stop vs us closing rest bound' where
  collect hends _ _ read hn := h.collect hends read (hbound.trans hn)
  arguments hparen _ _ name state hn := h.arguments hparen name state (hbound.trans hn)

theorem gives_value_single {t : Token} (hopens : t.type.closer? = none)
    (hvar : t.isDelim "$" = true → ∀ v ∈ vs.head?, v.hasType .ident = false)
    (hitems : r.cursor.items = (.token t :: vs).map .value) (hn : 1 ≤ n) :
    Gives (value n) r (some (.token t)) vs := by
  obtain ⟨n, rfl⟩ := Nat.exists_eq_add_of_le' hn
  have hbehind : t.isDelim "$" = true → ∀ v ∈ Item.first? (vs.map .value), v.hasType .ident = false := by
    cases vs with
    | nil => exact fun _ _ => nofun
    | cons v vs => exact hvar
  exact .of_run (value_of_single hopens Item.blank_nil hitems hbehind n) (.next hitems)

theorem gives_value_group {g : Value} (hgroup : g.IsGroup)
    (hitems : r.cursor.items = (g :: vs).map .value) (hn : 1 ≤ n) :
    Gives (value n) r (some g) vs := by
  obtain ⟨n, rfl⟩ := Nat.exists_eq_add_of_le' hn
  have hfront := peek_of_items_cons hitems
  have hpass : Gives (do remember g; next) r (some g) vs :=
    .inr ⟨_, pass_of_peek hfront, Cursor.items_next_of_blank Item.blank_nil hitems, rfl, rfl⟩
  rw [value]
  refine .peek ?_
  simp only [hfront]
  cases g with
  | block opener contents closer => exact hpass
  | call name args commas closer => exact hpass
  | token t => exact (token_not_isGroup hgroup).elim
  | reference dollar name => rcases hgroup with hgroup | hgroup <;> cases hgroup

/-- A block ends at its closer. -/
theorem endsAt_blockEnd (opener : Token) (closer : TokenType) :
    EndsAt (·.type == closer) (blockEnd opener closer)
      fun read closing => ⟨opener, read.reverse, closing⟩ where
  ended := by
    intro r read hitems
    unfold blockEnd
    refine .peek ?_
    rw [peek_of_items_nil hitems]
    exact .pure hitems
  stopped := by
    intro r t vs read hitems hstop
    unfold blockEnd
    refine .peek ?_
    simp only [peek_of_items_cons hitems, Value.hasType, hstop, if_true]
    exact (Gives.next hitems).bind fun s hs _ => .pure hs
  goesOn := by
    intro r v vs read hitems hstop
    have htype : v.hasType closer = false := by
      cases v with
      | token t => exact hstop
      | _ => rfl
    unfold blockEnd
    rw [bind_ok (peek_run _ r), peek_of_items_cons hitems]
    simp only [htype]
    rfl

theorem gives_block {opener : Token} {closer : TokenType} (hpartner : opener.type.partner? = some closer)
    (hinner : ReadsContents σ (·.type == closer) vs us closing mid bound) (hbinds : r.scopes.Binds σ)
    (hitems : r.cursor.items = (.token opener :: vs).map .value) (hn : bound + 1 ≤ n) :
    Gives (block n) r ⟨opener, us, closing⟩ mid := by
  obtain ⟨n, rfl⟩ := Nat.exists_eq_add_of_le' (Nat.le_of_add_left_le hn)
  have hopener : Gives (scan Scan.opener) r (opener, closer) vs :=
    .inr ⟨{ r with cursor := r.cursor.next.2 }, scan_opener (peek_of_items_cons hitems) hpartner,
      Cursor.items_next_of_blank Item.blank_nil hitems, rfl, rfl⟩
  rw [block]
  refine hopener.bind fun s hs hscopes => .nested fun t ht hscopes' => .inScope fun u hu henter => ?_
  have hinside : u.scopes.Binds σ := by
    rw [henter, hscopes', hscopes]
    exact hbinds.enter
  have hread := hinner.collect (endsAt_blockEnd opener closer) [] (Nat.le_of_succ_le_succ hn) hinside
    (by rw [hu, ht, hs])
  simpa using hread

theorem gives_value_block {opener : Token} {closer : TokenType}
    (hpartner : opener.type.partner? = some closer)
    (hinner : ReadsContents σ (·.type == closer) vs us closing mid bound) (hbinds : r.scopes.Binds σ)
    (hitems : r.cursor.items = (.token opener :: vs).map .value) (hn : bound + 2 ≤ n) :
    Gives (value n) r (some (.block opener us closing)) mid := by
  obtain ⟨n, rfl⟩ := Nat.exists_eq_add_of_le' (Nat.le_of_add_left_le hn)
  rw [value]
  refine .peek ?_
  simp only [peek_of_items_cons hitems, isOpener_of_partner? hpartner, if_true]
  exact (gives_block hpartner hinner hbinds hitems (Nat.le_of_succ_le_succ hn)).bind
    fun s hs _ => .pure hs

theorem gives_value_call {name : Token} (hname : name.type = .function)
    (hinner : ReadsContents σ (·.type == .closeParen) vs us closing mid bound)
    (hbinds : r.scopes.Binds σ) (hitems : r.cursor.items = (.token name :: vs).map .value)
    (hn : bound + 2 ≤ n) :
    Gives (value n) r (some (openCall name us closing)) mid := by
  obtain ⟨n, rfl⟩ := Nat.exists_eq_add_of_le' (Nat.le_of_add_left_le hn)
  have hconsume : Gives (scan (Scan.consume .function "Expected function")) r name vs :=
    .inr ⟨_, consume_of_items _ hitems hname, rfl, rfl, rfl⟩
  have hcall : Gives (call (n + 1)) r ((us.foldl CallState.add {}).close name closing) mid := by
    rw [call]
    refine hconsume.bind fun s hs hscopes => .nested fun t ht hscopes' => ?_
    refine hinner.arguments (fun _ => rfl) name {} (by omega) ?_ (by rw [ht, hs])
    rw [hscopes', hscopes]
    exact hbinds
  rw [value]
  refine .peek ?_
  simp only [peek_of_items_cons hitems, hname, if_true]
  exact hcall.bind fun s hs _ => .pure hs

/-- A variable in front gives no value: its values are put in its place. -/
theorem gives_value_use {dollar name : Token} {values : List Value}
    (hdollar : dollar.isDelim "$" = true) (hname : name.type = .ident)
    (hvalues : σ name.text = some values)
    (hsign : ∀ v ∈ (vs.dropWhile Value.isWhitespace).head?, v.isDefinitionSign = false)
    (hbinds : r.scopes.Binds σ)
    (hitems : r.cursor.items = (.token dollar :: .token name :: vs).map .value) (hn : 2 ≤ n) :
    Gives (value n) r none (values ++ vs) := by
  obtain ⟨n, rfl⟩ := Nat.exists_eq_add_of_le' hn
  obtain ⟨hfree, hbound⟩ := hbinds _ _ hvalues
  have hrun : scan (Scan.consumeDelim "$" "Expected '$'") r =
      .ok dollar (Behind r (.value (.token name) :: vs.map .value) dollar.position) :=
    consumeDelim_of_items _ hitems hdollar
  have hrun' : scan (Scan.consume .ident "Expected variable name after '$'")
      (Behind r (.value (.token name) :: vs.map .value) dollar.position) =
        .ok name (Behind r (vs.map .value) name.position) :=
    consume_of_items _ rfl hname
  have hsilent : ∀ v ∈ (Behind r (vs.map .value) name.position).cursor.peek
      (Behind r (vs.map .value) name.position).cursor.blankOffset, v.isDefinitionSign = false := by
    have hrest : (Behind r (vs.map .value) name.position).cursor.rest = vs := by
      simp [Cursor.rest, Behind, List.filterMap_map, Function.comp_def, Item.value?]
    rw [Cursor.peek_blankOffset, Cursor.peek_eq_getElem?, Cursor.rest_skipWhitespace, hrest,
      ← List.head?_eq_getElem?]
    exact hsign
  have huse : variableUse (n + 1) r = .ok (.substituted ⟨dollar, name⟩)
      { Behind r (vs.map .value) name.position with
        cursor := (Behind r (vs.map .value) name.position).cursor.splice values } := by
    rw [variableUse_succ, bind_ok hrun, bind_ok hrun', definitionOrUse_of_silent hsilent]
    exact resolve_of_bound ⟨dollar, name⟩ hbound hfree
  have hstart : isVariableStart r = .ok true r := by
    simp [Read.isVariableStart, Read.peek, Cursor.checkDelim, Cursor.check, Cursor.peek, hitems,
      Item.peek?, Value.isDelim, Value.hasType, hdollar, hname]
  have htype : dollar.type = .delim := (Token.isDelim_iff.mp hdollar).1
  have hopener : dollar.type.isOpener = false := by
    rw [htype]
    rfl
  have hfunction : dollar.type ≠ .function := by
    rw [htype]
    decide
  have hvalue : value (n + 2) r = (do return (← variableUse (n + 1)).value?) r := by
    rw [value, bind_ok (peek_run _ r), peek_of_items_cons hitems]
    simp only [hopener, hfunction, if_false, Bool.false_eq_true]
    rw [bind_ok hstart]
    simp only [if_true]
  refine .inr ⟨_, hvalue.trans (bind_ok huse), ?_, rfl, rfl⟩
  simp [Cursor.splice, Behind]

end Values

/-- Contents are read, with a budget that depends on them alone. -/
theorem exists_readsContents {stop : Token → Bool} {vs us rest : List Value} {closing : Option Token}
    (h : Contents σ stop vs us closing rest) :
    ∃ bound, ReadsContents σ stop vs us closing rest bound := by
  induction h with
  | ended => exact ⟨_, readsContents_ended⟩
  | stopped hstop => exact ⟨_, readsContents_stopped hstop⟩
  | @single _ t _ _ _ _ hstop hopens hvar _ ih =>
      obtain ⟨bound, hrest⟩ := ih
      refine ⟨_, readsContents_step (.token t) (some (.token t)) hstop (fun _ => ⟨rfl, rfl⟩) ?_ ?_ (hrest.mono (Nat.le_add_right _ 1))⟩
      · rintro hcomma _ ⟨⟩
        exact hcomma
      · intro r n hn _ hitems
        exact gives_value_single hopens hvar hitems (Nat.le_of_add_left_le hn)
  | @block _ opener closer _ inner _ _ _ closing _ hstop hpartner _ _ ihinner ih =>
      obtain ⟨bound, hinner⟩ := ihinner
      obtain ⟨bound', hrest⟩ := ih
      have hcomma : ¬ (Value.token opener).hasType .comma = true := by
        cases htype : opener.type <;> simp_all [Value.hasType, TokenType.partner?]
      refine ⟨_, readsContents_step (.token opener) (some (.block opener inner closing)) hstop
        (fun h => (hcomma h).elim) ?_ ?_ (hrest.mono (Nat.le_add_left _ (bound + 2)))⟩
      · rintro _ _ ⟨⟩
        rfl
      · intro r n hn hbinds hitems
        exact gives_value_block hpartner hinner hbinds hitems (Nat.le_of_add_right_le hn)
  | @call _ name _ inner _ _ _ closing _ hstop hname _ _ ihinner ih =>
      obtain ⟨bound, hinner⟩ := ihinner
      obtain ⟨bound', hrest⟩ := ih
      have hcomma : ¬ (Value.token name).hasType .comma = true := by
        simp [Value.hasType, hname]
      refine ⟨_, readsContents_step (.token name) (some (openCall name inner closing)) hstop
        (fun h => (hcomma h).elim) ?_ ?_ (hrest.mono (Nat.le_add_left _ (bound + 2)))⟩
      · rintro _ _ ⟨⟩
        rfl
      · intro r n hn hbinds hitems
        exact gives_value_call hname hinner hbinds hitems (Nat.le_of_add_right_le hn)
  | @group _ g _ _ _ _ hgroup _ ih =>
      obtain ⟨bound, hrest⟩ := ih
      have hcomma : ¬ g.hasType .comma = true := by
        cases g with
        | token t => exact (token_not_isGroup hgroup).elim
        | _ => rintro ⟨⟩
      have hstop (stop : Token → Bool) : g.stopsAt stop = false := by
        cases g with
        | token t => exact (token_not_isGroup hgroup).elim
        | _ => rfl
      refine ⟨_, readsContents_step g (some g) (hstop _) (fun h => (hcomma h).elim) ?_ ?_ (hrest.mono (Nat.le_add_right _ 1))⟩
      · rintro hcomma _ ⟨⟩
        exact hcomma
      · intro r n hn _ hitems
        exact gives_value_group hgroup hitems (Nat.le_of_add_left_le hn)
  | @use _ dollar _ _ _ _ _ _ hstop hdollar hname hvalues hsign _ ih =>
      obtain ⟨bound, hrest⟩ := ih
      have hcomma : ¬ (Value.token dollar).hasType .comma = true := by
        simp [Value.hasType, (Token.isDelim_iff.mp hdollar).1]
      refine ⟨_, readsContents_step (.token dollar) none hstop (fun h => (hcomma h).elim) ?_ ?_
        (hrest.mono (Nat.le_add_right _ 2))⟩
      · rintro _ _ ⟨⟩
      · intro r n hn hbinds hitems
        exact gives_value_use hdollar hname hvalues hsign hbinds hitems (Nat.le_of_add_left_le hn)

end Read
end Cascade

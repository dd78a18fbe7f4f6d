import Cascade.Proofs.Kinship
import Cascade.Reader.Mixins
import Cascade.Token.Lexer

/-!
# Instances of mixins

A mixin is defined with parameters, those with defaults last.  An instance of it is its
body with the arguments of a call in place of the parameters, all at once: what stands
in for a reference is not looked into again.

**Method.**  `Assigns ps args σ` says which values the parameters have in a call, and
`Substitutes σ f` says by laws what it is to replace references by such values; at most
one function satisfies them (`Substitutes.unique`).

**Results.**
* `Read.delivers_defineMixin`: what a definition stores.
* `bindArguments_isOk_iff`, `assigns_of_bindArguments`: when arguments can be bound, and
  what to.
* `Read.instantiate_of_defineMixin`: the instances of a mixin that has been defined.
-/

namespace Cascade

/-! ## Replacing references -/

/-- The function replaces every reference to a name that `σ` knows, at any depth, and keeps all else. -/
structure Substitutes (σ : String → Option (List Value)) (f : List Value → List Value) : Prop where
  nil : f [] = []
  append : ∀ us vs, f (us ++ vs) = f us ++ f vs
  token : ∀ t, f [.token t] = [.token t]
  known : ∀ dollar name values, σ name.text = some values → f [.reference dollar name] = values
  unknown : ∀ dollar name, σ name.text = none →
    f [.reference dollar name] = [.reference dollar name]
  block : ∀ opener contents closer,
    f [.block opener contents closer] = [.block opener (f contents) closer]
  call : ∀ name args commas closer,
    f [.call name args commas closer] = [.call name (args.map f) commas closer]

section Substitution

variable {σ : String → Option (List Value)} {f g : List Value → List Value}

theorem Substitutes.cons (h : Substitutes σ f) (v : Value) (vs : List Value) :
    f (v :: vs) = f [v] ++ f vs :=
  h.append [v] vs

mutual

theorem Substitutes.eq_single (hf : Substitutes σ f) (hg : Substitutes σ g) :
    ∀ v : Value, f [v] = g [v]
  | .token t => by rw [hf.token, hg.token]
  | .block opener contents closer => by
      rw [hf.block, hg.block, hf.eq_of_list hg contents]
  | .call name args commas closer => by
      rw [hf.call, hg.call, hf.map_eq hg args]
  | .reference dollar name => by
      cases hσ : σ name.text with
      | none => rw [hf.unknown dollar name hσ, hg.unknown dollar name hσ]
      | some values => rw [hf.known dollar name values hσ, hg.known dollar name values hσ]

theorem Substitutes.eq_of_list (hf : Substitutes σ f) (hg : Substitutes σ g) :
    ∀ vs : List Value, f vs = g vs
  | [] => by rw [hf.nil, hg.nil]
  | v :: vs => by
      rw [hf.cons, hg.cons, hf.eq_single hg v, hf.eq_of_list hg vs]

theorem Substitutes.map_eq (hf : Substitutes σ f) (hg : Substitutes σ g) :
    ∀ args : List (List Value), args.map f = args.map g
  | [] => rfl
  | arg :: args => by
      rw [List.map_cons, List.map_cons, hf.eq_of_list hg arg, hf.map_eq hg args]

end

/-- There is one way only to replace references. -/
theorem Substitutes.unique (hf : Substitutes σ f) (hg : Substitutes σ g) :
    f = g :=
  funext (hf.eq_of_list hg)

end Substitution

section Instances

variable (bound : Bindings (List Value))

theorem instantiateAll_append (us vs : List Value) :
    instantiateAll bound (us ++ vs) = instantiateAll bound us ++ instantiateAll bound vs := by
  induction us with
  | nil => rw [List.nil_append, instantiateAll, List.nil_append]
  | cons u us ih => rw [List.cons_append, instantiateAll, instantiateAll, ih, List.append_assoc]

theorem instantiateAll_single (v : Value) :
    instantiateAll bound [v] = v.instantiate bound := by
  rw [instantiateAll, instantiateAll, List.append_nil]

theorem instantiateArguments_eq_map (args : List (List Value)) :
    instantiateArguments bound args = args.map (instantiateAll bound) := by
  induction args with
  | nil => rw [instantiateArguments, List.map_nil]
  | cons arg args ih => rw [instantiateArguments, ih, List.map_cons]

/-- An instance is made by replacing the references to bound names. -/
theorem substitutes_instantiateAll :
    Substitutes bound.find? (instantiateAll bound) where
  nil := by rw [instantiateAll]
  append := instantiateAll_append bound
  token t := by rw [instantiateAll_single, Value.instantiate]
  known dollar name values h := by rw [instantiateAll_single, Value.instantiate, h]
  unknown dollar name h := by rw [instantiateAll_single, Value.instantiate, h]
  block opener contents closer := by rw [instantiateAll_single, Value.instantiate]
  call name args commas closer := by
    rw [instantiateAll_single, Value.instantiate, instantiateArguments_eq_map]

end Instances

/-! ## Arguments -/

/-- The argument is missing or blank. -/
def IsBlank (arg : List Value) : Prop :=
  trimWhitespace arg = []

/-- What a parameter stands for: its argument without the whitespace around it, or its default where
the argument is missing or blank. -/
def Parameter.given (p : Parameter) (arg : List Value) : List Value :=
  match trimWhitespace arg with
  | [] => p.fallback.getD []
  | v :: vs => v :: vs

/-- The values of the parameters in a call, which are matched with its arguments by their order; of
several parameters with one name the last one counts. -/
structure Assigns (ps : List Parameter) (args : List (List Value))
    (σ : String → Option (List Value)) : Prop where
  last : ∀ (i : Nat) (p : Parameter), ps[i]? = some p →
    (∀ (j : Nat) (q : Parameter), i < j → ps[j]? = some q → q.name ≠ p.name) →
    σ p.name = some (p.given (args[i]?.getD []))
  other : ∀ name, (∀ p ∈ ps, p.name ≠ name) → σ name = none

/-- Every parameter without a default has an argument that is not blank. -/
def Supplied (ps : List Parameter) (args : List (List Value)) : Prop :=
  ∀ (i : Nat) (p : Parameter), ps[i]? = some p → p.fallback = none → ¬ IsBlank (args[i]?.getD [])

section Arguments

variable {mixin : String} {p : Parameter} {ps : List Parameter} {args : List (List Value)}
  {bound bound' : Bindings (List Value)}

theorem getD_zero (args : List (List Value)) :
    args[0]?.getD [] = args.headD [] := by
  cases args <;> rfl

theorem getElem?_tail_getD (args : List (List Value)) (i : Nat) :
    args.tail[i]?.getD [] = args[i + 1]?.getD [] := by
  rw [List.getElem?_tail]

theorem supplied_cons :
    Supplied (p :: ps) args ↔
      (p.fallback = none → ¬ IsBlank (args.headD [])) ∧ Supplied ps args.tail := by
  constructor
  · intro h
    refine ⟨fun hp => ?_, fun i q hq hnone => ?_⟩
    · have hfirst := h 0 p rfl hp
      rwa [getD_zero] at hfirst
    · rw [getElem?_tail_getD]
      exact h (i + 1) q hq hnone
  · rintro ⟨hfirst, hrest⟩ i q hq hnone
    cases i with
    | zero =>
        cases hq
        rw [getD_zero]
        exact hfirst hnone
    | succ i =>
        rw [← getElem?_tail_getD]
        exact hrest i q hq hnone

variable (mixin p ps args bound) in
/-- A parameter without a default and without an argument is a fault; any other one is bound. -/
theorem bindArguments_cons :
    (p.fallback = none ∧ IsBlank (args.headD []) ∧
        bindArguments mixin (p :: ps) args bound = .error (.missingArgument p.name mixin)) ∨
      ((p.fallback = none → ¬ IsBlank (args.headD [])) ∧
        bindArguments mixin (p :: ps) args bound =
          bindArguments mixin ps args.tail (bound.set p.name (p.given (args.headD [])))) := by
  unfold IsBlank Parameter.given
  rw [bindArguments]
  cases htrim : trimWhitespace (args.headD []) with
  | nil =>
      cases hfallback : p.fallback with
      | none => exact .inl ⟨rfl, rfl, rfl⟩
      | some value => exact .inr ⟨nofun, rfl⟩
  | cons v vs => exact .inr ⟨fun _ => List.cons_ne_nil v vs, rfl⟩

variable (mixin bound) in
/-- Arguments can be bound where none is missing that has no default. -/
theorem bindArguments_isOk_iff :
    (∃ b, bindArguments mixin ps args bound = .ok b) ↔ Supplied ps args := by
  induction ps generalizing args bound with
  | nil => exact ⟨fun _ i p hp => (nomatch hp), fun _ => ⟨bound, rfl⟩⟩
  | cons p ps ih =>
      rw [supplied_cons]
      rcases bindArguments_cons mixin p ps args bound with
        ⟨hnone, hblank, hrun⟩ | ⟨hfirst, hrun⟩
      · rw [hrun]
        exact ⟨fun ⟨b, hb⟩ => (nomatch hb), fun h => (h.1 hnone hblank).elim⟩
      · rw [hrun, ih]
        exact ⟨fun h => ⟨hfirst, h⟩, fun h => h.2⟩

/-- The last parameter of a name is bound to its argument, and no other name is bound. -/
theorem find?_of_bindArguments (h : bindArguments mixin ps args bound = .ok bound') :
    (∀ (i : Nat) (p : Parameter), ps[i]? = some p →
        (∀ (j : Nat) (q : Parameter), i < j → ps[j]? = some q → q.name ≠ p.name) →
        bound'.find? p.name = some (p.given (args[i]?.getD []))) ∧
      ∀ name, (∀ p ∈ ps, p.name ≠ name) → bound'.find? name = bound.find? name := by
  induction ps generalizing args bound with
  | nil =>
      cases h
      exact ⟨fun i p hp => (nomatch hp), fun _ _ => rfl⟩
  | cons p ps ih =>
      rcases bindArguments_cons mixin p ps args bound with
        ⟨_, _, hrun⟩ | ⟨_, hrun⟩
      · rw [hrun] at h
        cases h
      · rw [hrun] at h
        obtain ⟨hlast, hother⟩ := ih h
        refine ⟨?_, ?_⟩
        · intro i q hq hbehind
          cases i with
          | zero =>
              -- No parameter behind the first one has its name, so the first binding stays.
              cases hq
              have hfree : ∀ q ∈ ps, q.name ≠ p.name := by
                intro q hq
                obtain ⟨j, hj⟩ := List.getElem?_of_mem hq
                exact hbehind (j + 1) q (Nat.succ_pos j) hj
              rw [hother p.name hfree, Bindings.find?_set, getD_zero]
          | succ i =>
              rw [← getElem?_tail_getD]
              exact hlast i q hq fun j q' hj hq' => hbehind (j + 1) q' (Nat.succ_lt_succ hj) hq'
        · intro name hname
          have hne : name ≠ p.name := (hname p List.mem_cons_self).symm
          rw [hother name fun q hq => hname q (List.mem_cons_of_mem _ hq), Bindings.find?_set_of_ne _ _ hne]

theorem assigns_of_bindArguments (h : bindArguments mixin ps args [] = .ok bound) :
    Assigns ps args bound.find? := by
  obtain ⟨hlast, hother⟩ := find?_of_bindArguments h
  exact ⟨hlast, hother⟩

end Arguments

/-- An instance of a mixin exists where no more arguments are given than it has parameters, and all
that it needs. -/
theorem Mixin.instantiate_isOk_iff {m : Mixin} (name : String) {args : List (List Value)} :
    (∃ body, m.instantiate name args = .ok body) ↔
      args.length ≤ m.parameterList.length ∧ Supplied m.parameterList args := by
  unfold Mixin.instantiate
  by_cases hmany : m.parameterList.length < args.length
  · rw [if_pos hmany]
    exact ⟨fun ⟨body, h⟩ => (nomatch h), fun h => (Nat.not_lt.mpr h.1 hmany).elim⟩
  · rw [if_neg hmany, ← bindArguments_isOk_iff name []]
    cases hbound : bindArguments name m.parameterList args [] with
    | error cause => exact ⟨fun ⟨body, h⟩ => (nomatch h), fun ⟨_, b, h⟩ => (nomatch h)⟩
    | ok bound => exact ⟨fun _ => ⟨Nat.not_lt.mp hmany, bound, rfl⟩, fun _ => ⟨_, rfl⟩⟩

/-- The instance has the arguments in place of the references to parameters. -/
theorem Mixin.substitutes_of_instantiate {m : Mixin} {name : String} {args : List (List Value)}
    {body : List Value} (h : m.instantiate name args = .ok body) :
    ∃ σ f, Assigns m.parameterList args σ ∧ Substitutes σ f ∧ body = f m.body := by
  unfold Mixin.instantiate at h
  by_cases hmany : m.parameterList.length < args.length
  · rw [if_pos hmany] at h
    cases h
  · rw [if_neg hmany] at h
    cases hbound : bindArguments name m.parameterList args [] with
    | error cause =>
        rw [hbound] at h
        cases h
    | ok bound =>
        rw [hbound] at h
        cases h
        exact ⟨bound.find?, instantiateAll bound, assigns_of_bindArguments hbound,
          substitutes_instantiateAll bound, rfl⟩

/-! ## Definitions -/

/-- The parameters without defaults come first. -/
def DefaultsLast (ps : List Parameter) : Prop :=
  ∃ required optional, ps = required ++ optional ∧ (∀ p ∈ required, p.fallback = none) ∧
    ∀ p ∈ optional, p.fallback.isSome = true

theorem DefaultsLast.nil :
    DefaultsLast [] :=
  ⟨[], [], rfl, List.forall_mem_nil _, List.forall_mem_nil _⟩

/-- One more parameter, which has a default if one before it has. -/
theorem DefaultsLast.concat {ps : List Parameter} {p : Parameter} (h : DefaultsLast ps)
    (hp : p.fallback.isSome = true ∨ ∀ q ∈ p :: ps, q.fallback = none) :
    DefaultsLast (ps ++ [p]) := by
  rcases hp with hp | hall
  · obtain ⟨required, optional, rfl, hrequired, hoptional⟩ := h
    refine ⟨required, optional ++ [p], List.append_assoc _ _ _, hrequired, ?_⟩
    intro q hq
    rcases List.mem_append.mp hq with hq | hq
    · exact hoptional q hq
    · rwa [List.mem_singleton.mp hq]
  · refine ⟨ps ++ [p], [], (List.append_nil _).symm, ?_, List.forall_mem_nil _⟩
    intro q hq
    rcases List.mem_append.mp hq with hq | hq
    · exact hall q (List.mem_cons_of_mem _ hq)
    · rw [List.mem_singleton.mp hq]
      exact hall p List.mem_cons_self

namespace Read

variable {α β : Type}

/-- Whatever a computation gives has the property, as has the reader that it leaves. -/
def Delivers (x : Read α) (Q : α → Reader → Prop) : Prop :=
  ∀ r a s, x r = .ok a s → Q a s

namespace Delivers

variable {Q : β → Reader → Prop}

theorem bind {P : α → Prop} {x : Read α} {f : α → Read β} (hx : Delivers x fun a _ => P a)
    (hf : ∀ a, P a → Delivers (f a) Q) :
    Delivers (x >>= f) Q := by
  intro r b t h
  obtain ⟨a, s, hrun, hrest⟩ := ok_of_bind h
  exact hf a (hx r a s hrun) s b t hrest

/-- Nothing need be known of what the first part gives. -/
theorem behind {x : Read α} {f : α → Read β} (hf : ∀ a, Delivers (f a) Q) :
    Delivers (x >>= f) Q :=
  .bind (P := fun _ => True) (fun _ _ _ _ => trivial) fun a _ => hf a

theorem pure {P : α → Prop} {a : α} (h : P a) :
    Delivers (Pure.pure a : Read α) fun a _ => P a := by
  rintro r _ _ ⟨⟩
  exact h

theorem exhausted :
    Delivers (Read.exhausted : Read β) Q :=
  nofun

theorem fail {d : Diagnostic} :
    Delivers (Read.fail d : Read β) Q :=
  nofun

theorem failAt {n : Nat} {cause : Cause} :
    Delivers (Read.failAt n cause : Read β) Q :=
  nofun

end Delivers

/-- The parameters that are read have their defaults last, if those read before have. -/
theorem delivers_parameters (mixin : Token) {n : Nat} {seen : Bool} {read : List Parameter}
    (hread : DefaultsLast read.reverse)
    (hseen : seen = false → ∀ p ∈ read, p.fallback = none) :
    Delivers (parameters mixin n seen read) fun ps _ => DefaultsLast ps := by
  induction n generalizing seen read with
  | zero =>
      rw [parameters]
      exact .exhausted
  | succ n ih =>
      -- One more parameter has been read; it has a default if one before it has.
      have hbehind (name : Token) (fallback : Option (List Value)) (hasDefault : Bool)
          (hdefault : hasDefault = fallback.isSome) (hlast : hasDefault = true ∨ seen = false) :
          Delivers (do
            skipWhitespace
            if ← peek (·.check 0 .comma) then
              let _ ← next
              parameters mixin n (seen || hasDefault) (⟨name.text, name, fallback⟩ :: read)
            else if ← peek (·.check 0 .closeParen) then
              parameters mixin n (seen || hasDefault) (⟨name.text, name, fallback⟩ :: read)
            else
              failAt 0 .parameterSeparator) fun ps _ => DefaultsLast ps := by
        have hnone : (seen || hasDefault) = false →
            ∀ p ∈ (⟨name.text, name, fallback⟩ :: read : List Parameter), p.fallback = none := by
          intro h
          obtain ⟨hunseen, hwithout⟩ := Bool.or_eq_false_iff.mp h
          refine List.forall_mem_cons.mpr ⟨?_, hseen hunseen⟩
          rwa [hdefault, Option.isSome_eq_false_iff, Option.isNone_iff_eq_none] at hwithout
        have hmore : DefaultsLast (⟨name.text, name, fallback⟩ :: read : List Parameter).reverse := by
          rw [List.reverse_cons]
          refine hread.concat ?_
          cases hvalue : hasDefault with
          | true => exact .inl (hdefault.symm.trans hvalue)
          | false =>
              have hunseen : seen = false := hlast.resolve_left (by simp [hvalue])
              refine .inr fun q hq => hnone (by simp [hunseen, hvalue]) q ?_
              simpa using hq
        refine .behind fun _ => .behind fun comma => ?_
        split
        · exact .behind fun _ => ih hmore hnone
        · refine .behind fun closed => ?_
          split
          · exact ih hmore hnone
          · exact .failAt
      rw [parameters]
      refine .behind fun _ => .behind fun ended => ?_
      split
      · exact .failAt
      · refine .behind fun closed => ?_
        split
        · exact .behind fun _ => .pure hread
        · refine .behind fun _ => .behind fun name => .behind fun _ => .behind fun hasDefault => ?_
          split
          · next hyes =>
              refine .behind fun _ => .behind fun value => ?_
              exact .bind (.pure (P := (· = some value)) rfl) fun fallback hvalue =>
                hbehind name fallback hasDefault (by rw [hyes, hvalue]; rfl) (.inl hyes)
          · next hno =>
              have hnone : hasDefault = false := Bool.eq_false_iff.mpr hno
              split
              · exact .bind (P := fun _ => False) .fail fun _ h => h.elim
              · next hunseen =>
                  exact .bind (.pure (P := (· = none)) rfl) fun fallback hvalue =>
                    hbehind name fallback hasDefault (by rw [hnone, hvalue]; rfl)
                      (.inr (Bool.eq_false_iff.mpr hunseen))

theorem delivers_mixinHead (n : Nat) :
    Delivers (mixinHead n) fun head _ => DefaultsLast (head.2.getD []) := by
  have hhead (name : Token) (ps : Option (List Parameter)) (h : DefaultsLast (ps.getD [])) :
      Delivers (Pure.pure (name, ps)) fun head _ => DefaultsLast (head.2.getD []) := by
    rintro r _ _ ⟨⟩
    exact h
  unfold mixinHead
  refine .behind fun front => ?_
  split
  · split
    · exact .behind fun _ => hhead _ none .nil
    · split
      · refine .behind fun _ => .bind (delivers_parameters _ .nil fun _ => List.forall_mem_nil _) ?_
        exact fun ps hps => hhead _ (some ps) hps
      · exact .failAt
  · exact .failAt

/-- A definition binds a mixin in the innermost scope, with the defaults of its parameters last. -/
theorem delivers_defineMixin (n : Nat) :
    Delivers (defineMixin n) fun _ s => ∃ (scopes : Scopes) (name : String) (m : Mixin),
      s.scopes = scopes.setMixin name m ∧ DefaultsLast m.parameterList := by
  unfold defineMixin
  refine .behind fun _ => .bind (delivers_mixinHead n) fun head hhead => ?_
  have hset (body : List Value) (k : Nat) : Delivers (do
      updateScopes (·.setMixin head.1.text ⟨head.2, body⟩)
      record (.mixinDefined head.1.text k head.1.position.line))
      fun _ s => ∃ (scopes : Scopes) (name : String) (m : Mixin),
        s.scopes = scopes.setMixin name m ∧ DefaultsLast m.parameterList := by
    rintro r _ _ ⟨⟩
    exact ⟨r.scopes, head.1.text, ⟨head.2, body⟩, rfl, hhead⟩
  refine .behind fun _ => .behind fun front => ?_
  dsimp only
  split
  · split
    · exact .behind fun b => .behind fun body => hset body _
    · exact .behind fun body => hset body _
  · split
    · exact .behind fun _ => .behind fun body => hset body _
    · exact .behind fun body => hset body _
  · exact .behind fun body => hset body _

/-- An inclusion asks for the instance of the mixin that it finds, and leaves the reader as it was. -/
theorem instantiate_run {target : Token} (args : List (List Value)) {m : Mixin} {r : Reader}
    (h : r.scopes.findMixin? target.text = some m) :
    instantiate target args r =
      match m.instantiate target.text args with
      | .ok body => .ok body r
      | .error cause => .error (.fault (.atToken cause target)) r := by
  unfold instantiate
  rw [bind_ok (show look (·.scopes) r = .ok r.scopes r from rfl)]
  simp only [h]
  cases m.instantiate target.text args <;> rfl

/-- What an inclusion makes of a mixin and a list of arguments.  There is an instance exactly where the
arguments are not too many and none is missing or blank that has no default; it is the body with the
values of the parameters in place of the references to them.  The reader stays as it was, whether there
is an instance or not. -/
structure MakesInstance (m : Mixin) (target : Token) (args : List (List Value)) (u : Reader) : Prop where
  isOk_iff : (∃ body, instantiate target args u = .ok body u) ↔
    args.length ≤ m.parameterList.length ∧ Supplied m.parameterList args
  body : ∀ body t, instantiate target args u = .ok body t →
    ∃ σ f, Assigns m.parameterList args σ ∧ Substitutes σ f ∧ body = f m.body
  reader : ∀ body t, instantiate target args u = .ok body t → t = u
  readerOfStop : ∀ stop t, instantiate target args u = .error stop t → t = u

theorem makesInstance_of_find {m : Mixin} {target : Token} {u : Reader}
    (h : u.scopes.findMixin? target.text = some m) (args : List (List Value)) :
    MakesInstance m target args u := by
  have hrun := instantiate_run args h
  cases hinstance : m.instantiate target.text args with
  | error cause =>
      rw [hinstance] at hrun
      refine ⟨?_, ?_, ?_, ?_⟩
      · rw [hrun, ← Mixin.instantiate_isOk_iff target.text, hinstance]
        exact ⟨fun ⟨body, hbody⟩ => (nomatch hbody), fun ⟨body, hbody⟩ => (nomatch hbody)⟩
      · rw [hrun]
        rintro _ _ ⟨⟩
      · rw [hrun]
        rintro _ _ ⟨⟩
      · rw [hrun]
        rintro _ _ ⟨⟩
        rfl
  | ok body =>
      rw [hinstance] at hrun
      refine ⟨?_, ?_, ?_, ?_⟩
      · rw [hrun, ← Mixin.instantiate_isOk_iff target.text, hinstance]
        exact ⟨fun _ => ⟨body, rfl⟩, fun _ => ⟨body, rfl⟩⟩
      · rw [hrun]
        rintro _ _ ⟨⟩
        exact m.substitutes_of_instantiate hinstance
      · rw [hrun]
        rintro _ _ ⟨⟩
        rfl
      · rw [hrun]
        rintro _ _ ⟨⟩

/-- What a definition stores is a mixin whose parameters with defaults come last, and wherever that mixin
is found, its instances are made by simultaneous substitution. -/
theorem instantiate_of_defineMixin {n : Nat} {r s : Reader} (h : defineMixin n r = .ok () s) :
    ∃ (scopes : Scopes) (name : String) (m : Mixin),
      s.scopes = scopes.setMixin name m ∧ DefaultsLast m.parameterList ∧
      ∀ (target : Token) (args : List (List Value)) (u : Reader),
        u.scopes.findMixin? target.text = some m → MakesInstance m target args u := by
  obtain ⟨scopes, name, m, hscopes, hlast⟩ := delivers_defineMixin n r () s h
  exact ⟨scopes, name, m, hscopes, hlast, fun target args u hfind => makesInstance_of_find hfind args⟩

/-- A definition behind its keyword: `k($a, $b: 1) { c: $a f($b, [$a]) }`. -/
def pairDefinition : List Token :=
  tokenize " k($a, $b: 1) \x7b c: $a f($b, [$a]) \x7d"

theorem instantiate_of_pairDefinition :
    ∃ s, defineMixin 40 (.ofTokens pairDefinition {}) = .ok () s ∧
      ∃ (scopes : Scopes) (name : String) (m : Mixin),
        s.scopes = scopes.setMixin name m ∧ DefaultsLast m.parameterList ∧
        ∀ (target : Token) (args : List (List Value)) (u : Reader),
          u.scopes.findMixin? target.text = some m → MakesInstance m target args u := by
  have hok : (match defineMixin 40 (.ofTokens pairDefinition {}) with
      | .ok _ _ => true
      | .error _ _ => false) = true := by
    decide +kernel
  cases h : defineMixin 40 (.ofTokens pairDefinition {}) with
  | ok a s => exact ⟨s, rfl, instantiate_of_defineMixin h⟩
  | error stop s =>
      rw [h] at hok
      cases hok

end Read
end Cascade

import Cascade.Proofs.Balance
import Cascade.Proofs.SelectorValues
import Cascade.Sheet.Parser
import Mathlib

/-!
# References that are left in a stylesheet

Reading resolves references where it meets them, one by one.  A group, that is a
block or a call, which stands in front already grouped is read as it stands, and
the references inside it stay.  Groups come to stand in front when the body of a
mixin is put there, whose brackets were closed when the mixin was defined.

This module shows that there is no other way for a reference to be left: outside
the body of a mixin every value that is read is built from tokens and from groups
that were read as they stood.

**Method.**  `BuiltFrom S v` says how `v` is made of tokens and of members of
`S`.  `Yields S x Q` is the statement about a computation that is run outside the
body of a mixin by a reader that has already passed the groups `S`.

**Results.**
* `yieldsValues`, `yields_nextRule`, `yields_bodies`: what is read is built from
  tokens and passed groups.
* `reference_left_iff`: a stylesheet holds a reference exactly when it holds a
  group with a reference that was read as it stood.
-/

namespace Cascade

/-! ## Parts of values and entries -/

namespace Value

/-- The value stands in another one, which may be itself. -/
inductive OccursIn (g : Value) : Value → Prop
  | self : OccursIn g g
  | block {opener : Token} {contents : List Value} {closer : Option Token} {v : Value} :
      v ∈ contents → OccursIn g v → OccursIn g (.block opener contents closer)
  | call {name : Token} {args : List (List Value)} {commas : List Token} {closer : Option Token}
      {arg : List Value} {v : Value} :
      arg ∈ args → v ∈ arg → OccursIn g v → OccursIn g (.call name args commas closer)

/-- The value stands in an entry, at any depth. -/
inductive OccursInEntry (g : Value) : Entry → Prop
  | declaration {d : Declaration} {v : Value} :
      v ∈ d.value → g.OccursIn v → OccursInEntry g (.declaration d)
  | stylePrelude {prelude : List Value} {selectors : SelectorList} {body : List Entry} {v : Value} :
      v ∈ prelude → g.OccursIn v → OccursInEntry g (.style prelude selectors body)
  | styleSelectors {prelude : List Value} {selectors : SelectorList} {body : List Entry} {v : Value} :
      v ∈ selectors.values → g.OccursIn v → OccursInEntry g (.style prelude selectors body)
  | styleBody {prelude : List Value} {selectors : SelectorList} {body : List Entry} {e : Entry} :
      e ∈ body → OccursInEntry g e → OccursInEntry g (.style prelude selectors body)
  | statement {name : Token} {prelude : List Value} {v : Value} :
      v ∈ prelude → g.OccursIn v → OccursInEntry g (.statement name prelude)
  | groupPrelude {name : Token} {prelude : List Value} {opener : Token} {body : List Entry}
      {closer : Option Token} {v : Value} :
      v ∈ prelude → g.OccursIn v → OccursInEntry g (.group name prelude opener body closer)
  | groupBody {name : Token} {prelude : List Value} {opener : Token} {body : List Entry}
      {closer : Option Token} {e : Entry} :
      e ∈ body → OccursInEntry g e → OccursInEntry g (.group name prelude opener body closer)
  | keyframePrelude {prelude : List Value} {opener : Token} {body : List Entry}
      {closer : Option Token} {v : Value} :
      v ∈ prelude → g.OccursIn v → OccursInEntry g (.keyframe prelude opener body closer)
  | keyframeBody {prelude : List Value} {opener : Token} {body : List Entry}
      {closer : Option Token} {e : Entry} :
      e ∈ body → OccursInEntry g e → OccursInEntry g (.keyframe prelude opener body closer)
  | loose {v : Value} : g.OccursIn v → OccursInEntry g (.loose v)

/-- A reference stands in the value. -/
def HasReference (v : Value) : Prop :=
  ∃ dollar name, (reference dollar name).OccursIn v

theorem OccursIn.trans {f g v : Value} (h : f.OccursIn g) (k : g.OccursIn v) :
    f.OccursIn v := by
  induction k with
  | self => exact h
  | block hv _ ih => exact .block hv ih
  | call ha hv _ ih => exact .call ha hv ih

theorem OccursIn.trans_entry {f g : Value} {e : Entry} (h : f.OccursIn g) (k : g.OccursInEntry e) :
    f.OccursInEntry e := by
  induction k with
  | declaration hv hg => exact .declaration hv (h.trans hg)
  | stylePrelude hv hg => exact .stylePrelude hv (h.trans hg)
  | styleSelectors hv hg => exact .styleSelectors hv (h.trans hg)
  | styleBody he _ ih => exact .styleBody he ih
  | statement hv hg => exact .statement hv (h.trans hg)
  | groupPrelude hv hg => exact .groupPrelude hv (h.trans hg)
  | groupBody he _ ih => exact .groupBody he ih
  | keyframePrelude hv hg => exact .keyframePrelude hv (h.trans hg)
  | keyframeBody he _ ih => exact .keyframeBody he ih
  | loose hg => exact .loose (h.trans hg)

/-! ## Values built from groups -/

/-- The value is made of tokens and of members of a list, grouped anew. -/
inductive BuiltFrom (S : List Value) : Value → Prop
  | token (t : Token) : BuiltFrom S (.token t)
  | member {v : Value} : v ∈ S → BuiltFrom S v
  | block {opener : Token} {contents : List Value} {closer : Option Token} :
      (∀ v ∈ contents, BuiltFrom S v) → BuiltFrom S (.block opener contents closer)
  | call {name : Token} {args : List (List Value)} {commas : List Token} {closer : Option Token} :
      (∀ arg ∈ args, ∀ v ∈ arg, BuiltFrom S v) → BuiltFrom S (.call name args commas closer)

theorem BuiltFrom.mono {S T : List Value} {v : Value} (hST : S <:+ T) (h : BuiltFrom S v) :
    BuiltFrom T v := by
  induction h with
  | token t => exact .token t
  | member hv => exact .member (hST.subset hv)
  | block _ ih => exact .block ih
  | call _ ih => exact .call ih

/-- A reference in a value that is built from groups stands in one of these groups. -/
theorem BuiltFrom.group_of_reference {S : List Value} {v : Value} {dollar name : Token}
    (h : BuiltFrom S v) (href : (reference dollar name).OccursIn v) :
    ∃ g ∈ S, g.HasReference ∧ g.OccursIn v := by
  induction h with
  | token t => cases href
  | @member v hv => exact ⟨v, hv, ⟨dollar, name, href⟩, .self⟩
  | block _ ih =>
      cases href with
      | block hv hin =>
          obtain ⟨g, hg, hr, ho⟩ := ih _ hv hin
          exact ⟨g, hg, hr, .block hv ho⟩
  | call _ ih =>
      cases href with
      | call ha hv hin =>
          obtain ⟨g, hg, hr, ho⟩ := ih _ ha _ hv hin
          exact ⟨g, hg, hr, .call ha hv ho⟩

end Value

/-- Every reference in the entry stands in one of the groups, and this group in the entry. -/
def Entry.Sourced (S : List Value) (e : Entry) : Prop :=
  ∀ dollar name, (Value.reference dollar name).OccursInEntry e →
    ∃ g ∈ S, g.HasReference ∧ g.OccursInEntry e

namespace Entry.Sourced

variable {S T : List Value}

theorem mono {e : Entry} (hST : S <:+ T) (h : e.Sourced S) :
    e.Sourced T := by
  intro dollar name href
  obtain ⟨g, hg, hr, ho⟩ := h dollar name href
  exact ⟨g, hST.subset hg, hr, ho⟩

theorem declaration {d : Declaration} (h : ∀ v ∈ d.value, Value.BuiltFrom S v) :
    Sourced S (.declaration d) := by
  intro dollar name href
  cases href with
  | declaration hv hin =>
      obtain ⟨g, hg, hr, ho⟩ := (h _ hv).group_of_reference hin
      exact ⟨g, hg, hr, .declaration hv ho⟩

/-- The values of the selectors come from the prelude, so only the prelude has to be built. -/
theorem style {prelude : List Value} {selectors : SelectorList} {body : List Entry}
    (hparse : Selector.parse prelude = .ok selectors)
    (hprelude : ∀ v ∈ prelude, Value.BuiltFrom S v) (hbody : ∀ e ∈ body, Sourced S e) :
    Sourced S (.style prelude selectors body) := by
  have hfrom (dollar name : Token) {v : Value} (hv : v ∈ prelude)
      (hin : (Value.reference dollar name).OccursIn v) :
      ∃ g ∈ S, g.HasReference ∧ g.OccursInEntry (.style prelude selectors body) := by
    obtain ⟨g, hg, hr, ho⟩ := (hprelude v hv).group_of_reference hin
    exact ⟨g, hg, hr, .stylePrelude hv ho⟩
  intro dollar name href
  cases href with
  | stylePrelude hv hin => exact hfrom dollar name hv hin
  | styleSelectors hv hin =>
      -- whatever reference stands in a value also stands in some value of the prelude
      let Q (v : Value) : Prop := (Value.reference dollar name).OccursIn v →
        ∃ u ∈ prelude, (Value.reference dollar name).OccursIn u
      have hQ : Hereditary Q := by
        refine ⟨?_, ?_⟩
        · intro t hin
          cases hin
        · intro _ _ _ _ h arg ha u hu hin
          exact h (.call ha hu hin)
      have hvalues := Selector.forall_mem_values_of_parse hQ (fun u hu hin => ⟨u, hu, hin⟩) hparse
      obtain ⟨u, hu, hu'⟩ := hvalues _ hv hin
      exact hfrom dollar name hu hu'
  | styleBody he hin =>
      obtain ⟨g, hg, hr, ho⟩ := hbody _ he dollar name hin
      exact ⟨g, hg, hr, .styleBody he ho⟩

theorem resolved {rule : AtRule} {body : List Entry}
    (hprelude : ∀ v ∈ rule.prelude, Value.BuiltFrom S v) (hbody : ∀ e ∈ body, Sourced S e) :
    Sourced S (rule.resolved body) := by
  intro dollar name href
  unfold AtRule.resolved at href ⊢
  split at href
  · cases href with
    | groupPrelude hv hin =>
        obtain ⟨g, hg, hr, ho⟩ := (hprelude _ hv).group_of_reference hin
        exact ⟨g, hg, hr, .groupPrelude hv ho⟩
    | groupBody he hin =>
        obtain ⟨g, hg, hr, ho⟩ := hbody _ he dollar name hin
        exact ⟨g, hg, hr, .groupBody he ho⟩
  · cases href with
    | statement hv hin =>
        obtain ⟨g, hg, hr, ho⟩ := (hprelude _ hv).group_of_reference hin
        exact ⟨g, hg, hr, .statement hv ho⟩

theorem keyframe {prelude : List Value} {opener : Token} {body : List Entry}
    {closer : Option Token} (hprelude : ∀ v ∈ prelude, Value.BuiltFrom S v)
    (hbody : ∀ e ∈ body, Sourced S e) :
    Sourced S (.keyframe prelude opener body closer) := by
  intro dollar name href
  cases href with
  | keyframePrelude hv hin =>
      obtain ⟨g, hg, hr, ho⟩ := (hprelude _ hv).group_of_reference hin
      exact ⟨g, hg, hr, .keyframePrelude hv ho⟩
  | keyframeBody he hin =>
      obtain ⟨g, hg, hr, ho⟩ := hbody _ he dollar name hin
      exact ⟨g, hg, hr, .keyframeBody he ho⟩

end Entry.Sourced

/-! ## Outside the bodies of mixins -/

/-- No body of a mixin is being captured: no scope is marked, and none has parameters. -/
def Reader.IsOutside (r : Reader) : Prop :=
  ∀ frame ∈ r.scopes.frames, frame.isCapture = false ∧ frame.parameters = []

theorem Reader.IsOutside.of_balanced {r s : Reader} (h : r.IsOutside) (hrs : Balanced r s) :
    s.IsOutside := by
  intro frame hframe
  rcases List.mem_cons.mp hframe with rfl | hframe
  · rw [hrs.isCapture, hrs.parameters]
    exact h _ List.mem_cons_self
  · rw [hrs.outer] at hframe
    exact h frame (List.mem_cons_of_mem _ hframe)

namespace Read

variable {α β : Type} {S : List Value}

/-- Outside the bodies of mixins, and once the groups `S` have been passed, a result has `Q` with the
groups that have been passed then. -/
def Yields (S : List Value) (x : Read α) (Q : List Value → α → Prop) : Prop :=
  ∀ r, r.IsOutside → S <:+ r.passed → ∀ a s, x r = .ok a s → Q s.passed a

theorem Yields.any {x : Read α} :
    Yields S x fun _ _ => True :=
  fun _ _ _ _ _ _ => trivial

theorem Yields.pure {a : α} {Q : List Value → α → Prop} (h : ∀ T, S <:+ T → Q T a) :
    Yields S (Pure.pure a) Q := by
  intro r _ hS b s hx
  cases hx
  exact h _ hS

theorem Yields.bind {x : Read α} {f : α → Read β} {P : List Value → α → Prop}
    {Q : List Value → β → Prop} (hsteady : Steady x) (hx : Yields S x P)
    (hf : ∀ a T, S <:+ T → P T a → Yields T (f a) Q) :
    Yields S (x >>= f) Q := by
  intro r hout hS b t h
  have hbalanced := hsteady r
  cases hr : x r with
  | error e s =>
      rw [bind_error hr] at h
      cases h
  | ok a s =>
      rw [bind_ok hr] at h
      rw [after_ok hr] at hbalanced
      have hs : S <:+ s.passed := hS.trans hbalanced.passed
      exact hf a s.passed hs (hx r hout hS a s hr) s (hout.of_balanced hbalanced)
        (List.suffix_refl _) b t h

/-- What has been passed already may be forgotten. -/
theorem Yields.grow {T : List Value} {x : Read α} {Q : List Value → α → Prop} (hST : S <:+ T)
    (hx : Yields S x Q) :
    Yields T x Q :=
  fun r hout hT => hx r hout (hST.trans hT)

/-- The first part is run for its effect only. -/
theorem Yields.skip {x : Read α} {f : α → Read β} {Q : List Value → β → Prop} (hsteady : Steady x)
    (hf : ∀ a, Yields S (f a) Q) :
    Yields S (x >>= f) Q :=
  .bind hsteady .any fun a _ hT _ => (hf a).grow hT

theorem yields_fail {d : Diagnostic} {Q : List Value → α → Prop} :
    Yields S (fail d) Q := by
  intro r _ _ a s h
  cases h

theorem yields_failAt {n : Nat} {cause : Cause} {Q : List Value → α → Prop} :
    Yields S (failAt n cause) Q := by
  intro r _ _ a s h
  cases h

theorem yields_exhausted {Q : List Value → α → Prop} :
    Yields S exhausted Q := by
  intro r _ _ a s h
  cases h

theorem Yields.andFinally {x : Read α} {Q : List Value → α → Prop} {g : Reader → Reader}
    {r s : Reader} {a : α} (hx : Yields S x Q) (h : Read.andFinally x g r = .ok a s)
    (hg : ∀ t, (g t).passed = t.passed) (hout : r.IsOutside) (hS : S <:+ r.passed) :
    Q s.passed a := by
  obtain ⟨t, ht, rfl⟩ := ok_of_andFinally h
  rw [hg]
  exact hx r hout hS a t ht

theorem Yields.nested {x : Read α} {Q : List Value → α → Prop} (hx : Yields S x Q) :
    Yields S (nested x) Q := by
  intro r hout hS a s h
  by_cases hroom : r.nesting < r.limits.nestingDepth
  · rw [nested_of_lt hroom] at h
    exact hx.andFinally h (fun _ => rfl) hout hS
  · rw [nested_of_le (Int.not_lt.mp hroom)] at h
    cases h

theorem Yields.inScope {x : Read α} {Q : List Value → α → Prop} (hx : Yields S x Q) :
    Yields S (inScope x) Q := by
  intro r hout hS a s h
  have hin : Reader.IsOutside { r with scopes := r.scopes.enter } := by
    intro frame hframe
    rcases List.mem_cons.mp hframe with rfl | hframe
    · exact ⟨rfl, rfl⟩
    · exact hout frame hframe
  rw [inScope_run] at h
  exact hx.andFinally h (fun _ => rfl) hin hS

theorem Yields.within {x : Read α} {Q : List Value → α → Prop} (vs : List Value)
    (hx : Yields S x Q) :
    Yields S (within vs x) Q := by
  intro r hout hS a s h
  have hin : Reader.IsOutside { r with cursor := .ofValues vs r.cursor.depth } := hout
  rw [within_run] at h
  exact hx.andFinally h (fun _ => rfl) hin hS

/-! ## Values -/

/-- All values of a list are built from the groups. -/
def AllBuilt (S : List Value) (vs : List Value) : Prop :=
  ∀ v ∈ vs, Value.BuiltFrom S v

theorem AllBuilt.mono {T vs : List Value} (hST : S <:+ T) (h : AllBuilt S vs) :
    AllBuilt T vs :=
  fun v hv => (h v hv).mono hST

theorem AllBuilt.reverse {vs : List Value} (h : AllBuilt S vs) :
    AllBuilt S vs.reverse :=
  fun v hv => h v (List.mem_reverse.mp hv)

theorem AllBuilt.trimmed {vs : List Value} (h : AllBuilt S vs) :
    AllBuilt S (trimWhitespace vs.reverse) :=
  fun v hv => h.reverse v (mem_of_mem_trimWhitespace hv)

theorem AllBuilt.cons {v : Value} {vs : List Value} (hv : Value.BuiltFrom S v)
    (h : AllBuilt S vs) :
    AllBuilt S (v :: vs) := by
  intro u hu
  rcases List.mem_cons.mp hu with rfl | hu
  · exact hv
  · exact h u hu

/-- A call that is being read has built arguments only. -/
def CallState.AllBuilt (S : List Value) (s : CallState) : Prop :=
  (∀ arg ∈ s.finished, Read.AllBuilt S arg) ∧ Read.AllBuilt S s.current

theorem CallState.AllBuilt.mono {T : List Value} {s : CallState} (hST : S <:+ T)
    (h : s.AllBuilt S) :
    s.AllBuilt T :=
  ⟨fun arg ha => (h.1 arg ha).mono hST, h.2.mono hST⟩

theorem CallState.AllBuilt.separate {s : CallState} (h : s.AllBuilt S) (comma : Token) :
    (s.separate comma).AllBuilt S := by
  refine ⟨?_, nofun⟩
  intro arg ha
  rcases List.mem_cons.mp ha with rfl | ha
  · exact h.2.reverse
  · exact h.1 arg ha

theorem CallState.AllBuilt.close {s : CallState} (h : s.AllBuilt S) (name : Token)
    (closer : Option Token) :
    ∀ arg ∈ (s.close name closer).arguments, Read.AllBuilt S arg := by
  intro arg ha
  unfold CallState.close at ha
  have ha := List.mem_reverse.mp ha
  split at ha
  · exact h.1 arg ha
  · rcases List.mem_cons.mp ha with rfl | ha
    · exact h.2.reverse
    · exact h.1 arg ha

/-- Outside the bodies of mixins no reference is kept. -/
theorem yields_resolve (ref : Reference) :
    Yields S (resolve ref) fun _ use => use.value? = none := by
  intro r hout hS use s h
  have hparameter : r.scopes.isParameter ref.name.text = false := by
    unfold Scopes.isParameter
    rw [List.any_eq_false]
    intro frame hframe
    simp [(hout frame hframe).2]
  have hcapture : r.scopes.isCapturing = false := by
    unfold Scopes.isCapturing
    rw [List.any_eq_false]
    intro frame hframe
    simp [(hout frame hframe).1]
  unfold resolve at h
  rw [bind_ok (show look (·.scopes) r = .ok r.scopes r from rfl)] at h
  simp only [hparameter, hcapture, Bool.false_eq_true, if_false] at h
  cases hfind : r.scopes.findVariable? ref.name.text with
  | some values =>
      rw [hfind] at h
      cases h
      rfl
  | none =>
      rw [hfind] at h
      cases h

/-- A result that is there only sometimes, and has the property then. -/
def Optionally (Q : List Value → α → Prop) (S : List Value) (found : Option α) : Prop :=
  ∀ a, found = some a → Q S a

theorem Yields.none {Q : List Value → α → Prop} :
    Yields S (Pure.pure none : Read (Option α)) (Optionally Q) :=
  .pure fun _ _ _ h => by cases h

theorem Yields.some {Q : List Value → α → Prop} {a : α} (h : ∀ T, S <:+ T → Q T a) :
    Yields S (Pure.pure (Option.some a) : Read (Option α)) (Optionally Q) := by
  refine .pure fun T hT => ?_
  rintro _ ⟨rfl⟩
  exact h T hT

/-- The end of a value list turns built values into a result with `Q`. -/
structure EndsBuilt (ending : List Value → Read (Option β)) (Q : List Value → β → Prop) : Prop where
  steady : ∀ read, Steady (ending read)
  yields : ∀ S read, AllBuilt S read → Yields S (ending read) (Optionally Q)
  mono : ∀ {S T b}, S <:+ T → Q S b → Q T b

theorem endsBuilt_blockEnd (opener : Token) (closer : TokenType) :
    EndsBuilt (blockEnd opener closer) fun T b => AllBuilt T b.contents := by
  refine ⟨steady_blockEnd opener closer, fun S read hread => ?_, AllBuilt.mono⟩
  unfold blockEnd
  refine .skip (steady_peek _) fun front => ?_
  split
  · exact .some fun T hT => hread.reverse.mono hT
  · split
    · exact .skip steady_next fun _ => .some fun T hT => hread.reverse.mono hT
    · exact .none

/-- The computations that read values give built values at a budget. -/
structure YieldsValues (n : Nat) : Prop where
  value : ∀ S, Yields S (value n) (Optionally Value.BuiltFrom)
  collect : ∀ {β : Type} {ending : List Value → Read (Option β)} {Q : List Value → β → Prop},
    EndsBuilt ending Q → ∀ S read, AllBuilt S read → Yields S (collect n ending read) Q
  block : ∀ S, Yields S (block n) fun T b => AllBuilt T b.contents
  call : ∀ S, Yields S (call n) fun T c => ∀ arg ∈ c.arguments, AllBuilt T arg
  arguments : ∀ S name state, CallState.AllBuilt S state →
    Yields S (arguments n name state) fun T c => ∀ arg ∈ c.arguments, AllBuilt T arg
  variableUse : ∀ S, Yields S (variableUse n) fun _ use => use.value? = none

/-- Outside the bodies of mixins the front value is read as a token, resolved, grouped anew or passed
as it stands. -/
theorem yields_value {n : Nat} (ih : YieldsValues n) (S : List Value) :
    Yields S (value (n + 1)) (Optionally Value.BuiltFrom) := by
  have hnothing {x : Read VariableUse} (hsteady : Steady x)
      (hx : Yields S x fun _ use => use.value? = none) :
      Yields S (do return (← x).value?) (Optionally Value.BuiltFrom) := by
    refine .bind hsteady hx fun use T _ huse => ?_
    rw [huse]
    exact .none
  intro r hout hS a s h
  rw [value, bind_ok (peek_run _ r)] at h
  cases hfront : r.cursor.peek 0 with
  | none =>
      rw [hfront] at h
      cases h
      rw [Cursor.next_fst, List.head?_eq_getElem?, ← Cursor.peek_eq_getElem?, hfront]
      exact fun v hv => by cases hv
  | some v =>
      rw [hfront] at h
      cases v with
      | reference dollar name =>
          have hx : Yields S (do let _ ← next; return (← resolve ⟨dollar, name⟩).value?)
              (Optionally Value.BuiltFrom) :=
            .skip steady_next fun _ => hnothing (steady_resolve _) (yields_resolve _)
          exact hx r hout hS a s h
      | block opener contents closer =>
          simp only at h
          rw [pass_of_peek hfront] at h
          cases h
          rintro _ ⟨rfl⟩
          exact .member List.mem_cons_self
      | call name args commas closer =>
          simp only at h
          rw [pass_of_peek hfront] at h
          cases h
          rintro _ ⟨rfl⟩
          exact .member List.mem_cons_self
      | token t =>
          simp only at h
          split at h
          · have hx : Yields S (do return some (← block n).toValue) (Optionally Value.BuiltFrom) :=
              .bind (steady_values n).block (ih.block S) fun b T _ hb =>
                .some fun U hU => .block (hb.mono hU)
            exact hx r hout hS a s h
          · split at h
            · have hx : Yields S (do return some (← call n).toValue) (Optionally Value.BuiltFrom) :=
                .bind (steady_values n).call (ih.call S) fun c T _ hc =>
                  .some fun U hU => .call fun arg ha => (hc arg ha).mono hU
              exact hx r hout hS a s h
            · rw [bind_ok (show isVariableStart r = .ok _ r from rfl)] at h
              split at h
              · exact hnothing (steady_values n).variableUse (ih.variableUse S) r hout hS a s h
              · rw [next_of_peek hfront] at h
                cases h
                rintro _ ⟨rfl⟩
                exact .token t

theorem yieldsValues (n : Nat) :
    YieldsValues n := by
  induction n with
  | zero =>
      constructor <;> intros <;> simp only [value_zero, collect_zero, block_zero, call_zero,
        arguments_zero, variableUse_zero] <;> exact yields_exhausted
  | succ n ih =>
      refine ⟨yields_value ih, ?_, ?_, ?_, ?_, ?_⟩
      · intro β ending Q hending S read hread
        rw [Read.collect]
        refine .bind (hending.steady read) (hending.yields S read hread) fun found T hT hfound => ?_
        split
        · exact .pure fun U hU => hending.mono hU (hfound _ rfl)
        · refine .bind (steady_values n).value (ih.value T) fun v U hU hv => ?_
          have hread := hread.mono (hT.trans hU)
          split
          · exact ih.collect hending U _ (hread.cons (hv _ rfl))
          · exact ih.collect hending U _ hread
      · intro S
        rw [Read.block]
        refine .skip (steady_scan _) fun bracket => ?_
        exact (ih.collect (endsBuilt_blockEnd _ _) S [] (List.forall_mem_nil _)).inScope.nested
      · intro S
        rw [Read.call]
        refine .skip (steady_scan _) fun name => ?_
        exact (ih.arguments S name {} ⟨List.forall_mem_nil _, List.forall_mem_nil _⟩).nested
      · intro S name state hstate
        rw [Read.arguments]
        refine .skip (steady_peek _) fun front => ?_
        split
        · exact .pure fun T hT => (hstate.mono hT).close _ _
        · split
          · exact .skip steady_next fun _ => .pure fun T hT => (hstate.mono hT).close _ _
          · split
            · exact .skip steady_next fun _ => ih.arguments S _ _ (hstate.separate _)
            · refine .bind (steady_values n).value (ih.value S) fun v T hT hv => ?_
              have hstate := hstate.mono hT
              split
              · exact ih.arguments T _ _ ⟨hstate.1, hstate.2.cons (hv _ rfl)⟩
              · exact ih.arguments T _ _ hstate
      · intro S
        rw [Read.variableUse]
        refine .skip (steady_scan _) fun dollar => .skip (steady_scan _) fun name => ?_
        refine .skip (steady_peek _) fun offset => .skip (steady_peek _) fun operator => ?_
        split
        · split
          · refine .skip steady_skipWhitespace fun _ => .skip steady_next fun _ => ?_
            refine .skip (steady_values n).valueList fun values => ?_
            refine .skip (steady_setVariable _ _) fun _ => .skip (steady_look _) fun depth => ?_
            exact .skip (steady_record _) fun _ => .pure fun _ _ => rfl
          · exact yields_resolve _
        · exact yields_resolve _

/-! ## Rules and bodies -/

/-- A rule with a prelude of built values. -/
def RuleBuilt (S : List Value) : Rule → Prop
  | .atRule r => AllBuilt S r.prelude
  | .qualified r => AllBuilt S r.prelude

theorem endsBuilt_atRuleEnd (name : Token) :
    EndsBuilt (atRuleEnd name) fun T r => AllBuilt T r.prelude := by
  refine ⟨steady_atRuleEnd name, fun S read hread => ?_, AllBuilt.mono⟩
  unfold atRuleEnd
  refine .skip (steady_peek _) fun front => ?_
  split
  · exact .some fun T hT => hread.trimmed.mono hT
  · split
    · exact .skip steady_next fun _ => .some fun T hT => hread.trimmed.mono hT
    · split
      · exact .skip steady_rawBlock fun _ => .some fun T hT => hread.trimmed.mono hT
      · exact .none
  · split
    · exact .skip steady_next fun _ => .some fun T hT => hread.trimmed.mono hT
    · exact .none
  · exact .none

theorem endsBuilt_qualifiedEnd :
    EndsBuilt qualifiedEnd fun T r => AllBuilt T r.prelude := by
  refine ⟨steady_qualifiedEnd, fun S read hread => ?_, AllBuilt.mono⟩
  unfold qualifiedEnd
  refine .skip (steady_peek _) fun front => ?_
  split
  · exact yields_failAt
  · split
    · exact .skip steady_rawBlock fun _ => .some fun T hT => hread.trimmed.mono hT
    · exact .none
  · split
    · exact .skip steady_next fun _ => .some fun T hT => hread.trimmed.mono hT
    · exact .none
  · exact .none

theorem endsBuilt_declarationEnd :
    EndsBuilt declarationEnd AllBuilt := by
  refine ⟨steady_declarationEnd, fun S read hread => ?_, AllBuilt.mono⟩
  unfold declarationEnd
  refine .skip (steady_peek _) fun front => ?_
  split
  · exact .some fun T hT => hread.reverse.mono hT
  · refine .skip (steady_peek _) fun ends => ?_
    split
    · exact .some fun T hT => hread.reverse.mono hT
    · split
      · exact .skip steady_next fun _ => .some fun T hT => hread.reverse.mono hT
      · exact .none

theorem yields_atRule (n : Nat) (S : List Value) :
    Yields S (atRule n) (Optionally fun T r => AllBuilt T r.prelude) := by
  have hrule (name : Token) : Yields S (do return some (← collect n (atRuleEnd name) []))
      (Optionally fun T r => AllBuilt T r.prelude) := by
    have hsteady := (steady_values n).collect _ [] (steady_atRuleEnd name)
    have hyields := (yieldsValues n).collect (endsBuilt_atRuleEnd name) S [] nofun
    exact .bind hsteady hyields fun r T _ hr => .some fun U hU => hr.mono hU
  unfold atRule
  refine .skip (steady_scan _) fun name => ?_
  dsimp only
  split
  · exact .skip (steady_defineMixin n) fun _ => .none
  · split
    · exact .skip (steady_includeMixins n name) fun _ => .none
    · unfold aliasOrRule
      split
      · refine .skip (steady_peek _) fun offset => .skip (steady_peek _) fun defines => ?_
        split
        · refine .skip steady_skipWhitespace fun _ => .skip steady_next fun _ => ?_
          refine .skip (steady_values n).valueList fun values => .skip (steady_setAlias _ _) fun _ => ?_
          exact .skip (steady_record _) fun _ => .none
        · refine .skip (steady_look _) fun scopes => ?_
          split
          · exact .skip (steady_expandAlias _ _) fun _ => .none
          · exact hrule name
      · exact hrule name

theorem yields_qualifiedRule (n : Nat) (S : List Value) :
    Yields S (qualifiedRule n) fun T r => AllBuilt T r.prelude :=
  (yieldsValues n).collect endsBuilt_qualifiedEnd S [] nofun

theorem yields_nextRule :
    ∀ (n : Nat) (S : List Value), Yields S (nextRule n) (Optionally RuleBuilt)
  | 0, _ => yields_exhausted
  | n + 1, S => by
      have hqualified : Yields S (do return some (.qualified (← qualifiedRule n)))
          (Optionally RuleBuilt) :=
        .bind (steady_qualifiedRule n) (yields_qualifiedRule n S) fun r T _ hr =>
          .some fun U hU => AllBuilt.mono hU hr
      rw [nextRule]
      refine .skip steady_skipWhitespace fun _ => .skip (steady_peek _) fun front => ?_
      split
      · exact .none
      · split
        · split
          · exact .skip steady_next fun _ => yields_nextRule n S
          · split
            · refine .bind (steady_atRule n) (yields_atRule n S) fun rule T hT hrule => ?_
              split
              · exact .some fun U hU => (hrule _ rfl).mono hU
              · exact yields_nextRule n T
            · refine .skip (steady_peek _) fun isStart => ?_
              split
              · exact .skip (steady_values n).variableUse fun _ => yields_nextRule n S
              · exact hqualified
        · exact hqualified

theorem yields_declaration (n : Nat) (S : List Value) :
    Yields S (declaration n) fun T d => AllBuilt T d.value := by
  have hsteady := (steady_values n).collect _ [] steady_declarationEnd
  have hyields := (yieldsValues n).collect endsBuilt_declarationEnd S [] nofun
  unfold declaration
  refine .skip (steady_scan _) fun name => .skip steady_skipWhitespace fun _ => ?_
  refine .skip (steady_scan _) fun colon => .bind hsteady hyields fun values T _ hvalues => ?_
  split
  · next hsplit =>
      refine .pure fun U hU v hv => ?_
      have hmem := mem_of_mem_trimWhitespace (mem_of_splitImportant hsplit hv)
      exact (hvalues v hmem).mono hU
  · exact yields_fail

/-- All entries have their references from the groups. -/
def AllSourced (S : List Value) (es : List Entry) : Prop :=
  ∀ e ∈ es, e.Sourced S

theorem AllSourced.mono {T : List Value} {es : List Entry} (hST : S <:+ T) (h : AllSourced S es) :
    AllSourced T es :=
  fun e he => (h e he).mono hST

theorem AllSourced.cons {e : Entry} {es : List Entry} (he : e.Sourced S) (h : AllSourced S es) :
    AllSourced S (e :: es) := by
  intro f hf
  rcases List.mem_cons.mp hf with rfl | hf
  · exact he
  · exact h f hf

theorem AllSourced.reverse {es : List Entry} (h : AllSourced S es) :
    AllSourced S es.reverse :=
  fun e he => h e (List.mem_reverse.mp he)

/-- The computations that read bodies give sourced entries at a budget. -/
structure YieldsBodies (n : Nat) : Prop where
  styleBlock : ∀ S b, Yields S (styleBlock n b) AllSourced
  styleEntries : ∀ S read, AllSourced S read → Yields S (styleEntries n read) AllSourced
  styleStatement : ∀ S v, Yields S (styleStatement n v) (Optionally fun T e => e.Sourced T)
  styleRule : ∀ S r, AllBuilt S r.prelude → Yields S (styleRule n r) fun T e => e.Sourced T
  resolveAtRule : ∀ S r inStyle, AllBuilt S r.prelude →
    Yields S (resolveAtRule n r inStyle) fun T e => e.Sourced T
  ruleList : ∀ S read, AllSourced S read → Yields S (ruleList n read) AllSourced
  keyframes : ∀ S read, AllSourced S read → Yields S (keyframes n read) AllSourced

/-- One statement of a style block. -/
theorem yields_styleStatement {n : Nat} (ih : YieldsBodies n) (S : List Value) (v : Value) :
    Yields S (styleStatement (n + 1) v) (Optionally fun T e => e.Sourced T) := by
  cases v with
  | token t =>
      rw [styleStatement]
      split
      · exact .skip steady_next fun _ => .none
      · split
        · refine .bind (steady_atRule n) (yields_atRule n S) fun rule T hT hrule => ?_
          split
          · exact .none
          · refine .bind ((steady_bodies n).resolveAtRule _ _)
              (ih.resolveAtRule T _ _ (hrule _ rfl)) fun e U _ he => ?_
            exact .some fun V hV => he.mono hV
        · refine .skip (steady_peek _) fun isStart => ?_
          split
          · exact .skip (steady_values n).variableUse fun _ => .none
          · split
            · refine .bind (steady_declaration n) (yields_declaration n S) fun d T _ hd => ?_
              exact .some fun U hU => .declaration (AllBuilt.mono hU hd)
            · split
              · refine .bind (steady_qualifiedRule n) (yields_qualifiedRule n S) fun r T _ hr => ?_
                refine .bind ((steady_bodies n).styleRule _) (ih.styleRule T _ hr) fun e U _ he => ?_
                exact .some fun V hV => he.mono hV
              · exact .skip (steady_skipStatement n _) fun _ => .none
  | _ =>
      rw [styleStatement]
      · exact .skip (steady_skipStatement n _) fun _ => .none
      · rintro _ ⟨⟩

theorem yields_resolveAtRule {n : Nat} (ih : YieldsBodies n) (S : List Value) (r : AtRule)
    (inStyle : Bool) (hr : AllBuilt S r.prelude) :
    Yields S (resolveAtRule (n + 1) r inStyle) fun T e => e.Sourced T := by
  have hsteady := steady_bodies n
  have hresolved {x : Read (List Entry)} (hx : Steady x) (hyields : Yields S x AllSourced) :
      Yields S (do return r.resolved (← x)) fun T e => e.Sourced T :=
    .bind hx hyields fun body T hT hbody => .pure fun U hU =>
      .resolved (hr.mono (hT.trans hU)) (hbody.mono hU)
  rw [resolveAtRule]
  split
  · exact .pure fun T hT => .resolved (hr.mono hT) (List.forall_mem_nil _)
  · split
    · exact hresolved ((hsteady.keyframes _).inScope.nested.within _)
        ((ih.keyframes S [] (List.forall_mem_nil _)).inScope.nested.within _)
    · exact hresolved ((hsteady.ruleList _).inScope.nested.within _)
        ((ih.ruleList S [] (List.forall_mem_nil _)).inScope.nested.within _)
    · exact hresolved (hsteady.styleBlock _) (ih.styleBlock S _)

theorem yields_bodies (n : Nat) :
    YieldsBodies n := by
  induction n with
  | zero =>
      constructor <;> intros <;> simp only [styleBlock_zero, styleEntries_zero, styleStatement_zero,
        styleRule_zero, resolveAtRule_zero, ruleList_zero, keyframes_zero] <;> exact yields_exhausted
  | succ n ih =>
      have hsteady := steady_bodies n
      refine ⟨?_, ?_, yields_styleStatement ih, ?_, yields_resolveAtRule ih, ?_, ?_⟩
      · intro S b
        rw [Read.styleBlock]
        exact (ih.styleEntries S [] (List.forall_mem_nil _)).inScope.nested.within _
      · intro S read hread
        rw [Read.styleEntries]
        refine .skip (steady_peek _) fun front => ?_
        split
        · exact .pure fun T hT => hread.reverse.mono hT
        · refine .bind (hsteady.styleStatement _) (ih.styleStatement S _) fun found T hT he => ?_
          have hread := hread.mono hT
          split
          · exact ih.styleEntries T _ (hread.cons (he _ rfl))
          · exact ih.styleEntries T _ hread
      · intro S r hr
        rw [Read.styleRule]
        split
        · exact yields_fail
        · next hparse =>
            refine .bind (hsteady.styleBlock _) (ih.styleBlock S _) fun body T hT hbody => ?_
            exact .pure fun U hU => .style hparse (hr.mono (hT.trans hU)) (hbody.mono hU)
      · intro S read hread
        rw [Read.ruleList]
        refine .bind (steady_nextRule n) (yields_nextRule n S) fun rule T hT hrule => ?_
        have hread := hread.mono hT
        split
        · exact .pure fun U hU => hread.reverse.mono hU
        · refine .bind (hsteady.styleRule _) (ih.styleRule T _ (hrule _ rfl)) fun e U hU he => ?_
          exact ih.ruleList U _ ((hread.mono hU).cons he)
        · refine .bind (hsteady.resolveAtRule _ _) (ih.resolveAtRule T _ _ (hrule _ rfl))
            fun e U hU he => ?_
          exact ih.ruleList U _ ((hread.mono hU).cons he)
      · intro S read hread
        rw [Read.keyframes]
        refine .bind (steady_nextRule n) (yields_nextRule n S) fun rule T hT hrule => ?_
        have hread := hread.mono hT
        split
        · exact .pure fun U hU => hread.reverse.mono hU
        · refine .bind (hsteady.styleBlock _) (ih.styleBlock T _) fun body U hU hbody => ?_
          have hprelude := AllBuilt.mono hU (hrule _ rfl)
          exact ih.keyframes U _ ((hread.mono hU).cons (.keyframe hprelude hbody))
        · refine .bind (hsteady.resolveAtRule _ _) (ih.resolveAtRule T _ _ (hrule _ rfl))
            fun e U hU he => ?_
          exact ih.keyframes U _ ((hread.mono hU).cons he)

end Read

/-! ## Stylesheets -/

/-- The groups that are read as they stand while a source text is read. -/
def Sheet.passed (limits : Limits) (source : String) : List Value :=
  ((Read.ruleList defaultBudget []).after (.ofTokens (tokenize source) limits)).passed

theorem Reader.isOutside_ofTokens (ts : List Token) (limits : Limits) :
    (Reader.ofTokens ts limits).IsOutside := by
  intro frame hframe
  rw [List.mem_singleton.mp hframe]
  exact ⟨rfl, rfl⟩

theorem Sheet.ruleList_of_parse {limits : Limits} {file source : String} {sheet : Sheet}
    (h : (Sheet.parse limits file source).1 = .ok sheet) :
    ∃ s, Read.ruleList defaultBudget [] (.ofTokens (tokenize source) limits) = .ok sheet.rules s := by
  unfold parse parseTokens run at h
  cases hrun : Read.ruleList defaultBudget [] (.ofTokens (tokenize source) limits) with
  | ok rules s =>
      rw [hrun] at h
      cases h
      exact ⟨s, rfl⟩
  | error stop s =>
      rw [hrun] at h
      cases h

theorem Sheet.isGroup_of_mem_passed {limits : Limits} {source : String} {g : Value}
    (hg : g ∈ Sheet.passed limits source) :
    g.IsGroup := by
  have hsteady := (Read.steady_bodies defaultBudget).ruleList [] (.ofTokens (tokenize source) limits)
  exact hsteady.groups nofun g hg

theorem Sheet.sourced_of_parse {limits : Limits} {file source : String} {sheet : Sheet}
    (h : (Sheet.parse limits file source).1 = .ok sheet) :
    ∀ e ∈ sheet.rules, e.Sourced (Sheet.passed limits source) := by
  obtain ⟨s, hrun⟩ := ruleList_of_parse h
  have hyields := (Read.yields_bodies defaultBudget).ruleList [] [] nofun
  have hpassed : Sheet.passed limits source = s.passed := by
    rw [Sheet.passed, Read.after_ok hrun]
  rw [hpassed]
  exact hyields _ (Reader.isOutside_ofTokens _ _) List.nil_suffix _ _ hrun

/-- A reference is left in a stylesheet exactly when a block or a call with a reference in it, which
stood in front already grouped and was read as it stood, is a part of the stylesheet. -/
theorem Sheet.reference_left_iff {limits : Limits} {file source : String} {sheet : Sheet}
    (h : (Sheet.parse limits file source).1 = .ok sheet) :
    (∃ e ∈ sheet.rules, ∃ dollar name, (Value.reference dollar name).OccursInEntry e) ↔
      ∃ g ∈ Sheet.passed limits source,
        g.IsGroup ∧ g.HasReference ∧ ∃ e ∈ sheet.rules, g.OccursInEntry e := by
  constructor
  · rintro ⟨e, he, dollar, name, hin⟩
    obtain ⟨g, hg, hr, ho⟩ := sourced_of_parse h e he dollar name hin
    exact ⟨g, hg, isGroup_of_mem_passed hg, hr, e, he, ho⟩
  · rintro ⟨g, _, _, ⟨dollar, name, hr⟩, e, he, ho⟩
    exact ⟨e, he, dollar, name, hr.trans_entry ho⟩

/-- A mixin that uses a variable of the place of inclusion, inside the brackets of a call. -/
def Sheet.bracketedUse : String :=
  "@mixin m \x7b color: rgb($x, 1); \x7d a \x7b $x: 1; @include m; \x7d"

theorem Sheet.parse_bracketedUse :
    ∃ prelude selectors property colon rgb dollar name args commas closer,
      (Sheet.parse {} "" bracketedUse).1 = .ok ⟨"", [.style prelude selectors [.declaration
        ⟨property, colon, [.call rgb ([.reference dollar name] :: args) commas closer], false⟩]]⟩ := by
  obtain ⟨outcome, h⟩ : ∃ outcome, (Sheet.parse {} "" bracketedUse).1 = outcome := ⟨_, rfl⟩
  rw [h]
  cbv at h
  subst h
  exact ⟨_, _, _, _, _, _, _, _, _, _, rfl⟩

theorem Sheet.reference_left_bracketedUse :
    ∃ sheet, (Sheet.parse {} "" bracketedUse).1 = .ok sheet ∧
      ∃ e ∈ sheet.rules, ∃ dollar name, (Value.reference dollar name).OccursInEntry e := by
  obtain ⟨_, _, _, _, _, dollar, name, _, _, _, h⟩ := parse_bracketedUse
  refine ⟨_, h, _, List.mem_cons_self, dollar, name, .styleBody List.mem_cons_self ?_⟩
  exact .declaration List.mem_cons_self (.call List.mem_cons_self List.mem_cons_self .self)

theorem Sheet.passed_group_of_bracketedUse :
    ∃ sheet, (Sheet.parse {} "" bracketedUse).1 = .ok sheet ∧
      ∃ g ∈ Sheet.passed {} bracketedUse,
        g.IsGroup ∧ g.HasReference ∧ ∃ e ∈ sheet.rules, g.OccursInEntry e := by
  obtain ⟨_, _, _, _, _, dollar, name, _, _, _, h⟩ := parse_bracketedUse
  refine ⟨_, h, (reference_left_iff h).mp ⟨_, List.mem_cons_self, dollar, name, ?_⟩⟩
  refine .styleBody List.mem_cons_self (.declaration List.mem_cons_self ?_)
  exact .call List.mem_cons_self List.mem_cons_self .self

end Cascade

import Cascade.Proofs.Composition
import Cascade.Proofs.Grouping
import Cascade.Sheet.Parser

/-!
# Limits only cut off

How deep blocks may be nested and mixins included is looked at in two places
only, and there only to stop.  A stylesheet that is read without stopping at a
limit is therefore read in the same way under wider limits.

**Method.**  Every computation is composed of primitives (`Proofs.Composition`), and
two of the ways to compose look at the limits: `nested`, which opens a block, and
`bounded`, which includes mixins.  All others are blind to them.  `Widens` is shown
for each way to compose.

**Results.**
* `Composed.widens`: wider limits change nothing but a stop at a limit.
* `Sheet.parseTokens_of_wider`: so it is with stylesheets.
-/

namespace Cascade

/-- The second limits allow all that the first ones do. -/
structure Limits.Within (l m : Limits) : Prop where
  includeDepth : l.includeDepth ≤ m.includeDepth
  nestingDepth : l.nestingDepth ≤ m.nestingDepth

/-- The reader under other limits. -/
def Reader.withLimits (r : Reader) (l : Limits) : Reader :=
  { r with limits := l }

namespace Read

variable {α β : Type} {x : Read α} {f : α → Read β} {r : Reader} {l : Limits}

/-! ## Wider limits -/

/-- The outcome of a reader beside that of the same reader under wider limits: both are the same, or
the first one is a stop at a limit. -/
inductive Unchanged (l : Limits) {α : Type} :
    EStateM.Result Stop Reader α → EStateM.Result Stop Reader α → Prop
  | result (a : α) {s : Reader} : s.limits.Within l → Unchanged l (.ok a s) (.ok a (s.withLimits l))
  | stop (e : Stop) (s : Reader) : Unchanged l (.error e s) (.error e (s.withLimits l))
  | cut {d : Diagnostic} (s : Reader) (o : EStateM.Result Stop Reader α) :
      d.kind = .recursionLimit → Unchanged l (.error (.fault d) s) o

/-- Wider limits change nothing but a stop at a limit. -/
def Widens (x : Read α) : Prop :=
  ∀ (r : Reader) (l : Limits), r.limits.Within l → Unchanged l (x r) (x (r.withLimits l))

theorem Widens.bind (hx : Widens x) (hf : ∀ a, Widens (f a)) :
    Widens (x >>= f) := by
  intro r l hl
  have hfirst := hx r l hl
  cases hrun : x r with
  | ok a s =>
      rw [hrun] at hfirst
      generalize hrun' : x (r.withLimits l) = o at hfirst
      cases hfirst with
      | result _ hs =>
          rw [bind_ok hrun, bind_ok hrun']
          exact hf a s l hs
  | error e s =>
      rw [hrun] at hfirst
      rw [bind_error hrun]
      generalize hrun' : x (r.withLimits l) = o at hfirst
      cases hfirst with
      | stop _ _ =>
          rw [bind_error hrun']
          exact .stop e s
      | cut _ _ hkind => exact .cut s _ hkind

/-- A change at the end that leaves the limits alone. -/
theorem Widens.andFinally (hx : Widens x) {g : Reader → Reader}
    (hlimits : ∀ s, (g s).limits = s.limits)
    (hblind : ∀ s l, g (s.withLimits l) = (g s).withLimits l) :
    Widens (andFinally x g) := by
  intro r l hl
  have hinside := hx r l hl
  cases hrun : x r with
  | ok a s =>
      rw [hrun] at hinside
      generalize hrun' : x (r.withLimits l) = o at hinside
      cases hinside with
      | result _ hs =>
          rw [andFinally_ok hrun, andFinally_ok hrun', hblind]
          exact .result a (hlimits s ▸ hs)
  | error e s =>
      rw [hrun] at hinside
      rw [andFinally_error hrun]
      generalize hrun' : x (r.withLimits l) = o at hinside
      cases hinside with
      | stop _ _ =>
          rw [andFinally_error hrun', hblind]
          exact .stop e (g s)
      | cut _ _ hkind => exact .cut (g s) _ hkind

/-- There is room for a block under wider limits where there was room before. -/
theorem Widens.nested (hx : Widens x) :
    Widens (nested x) := by
  intro r l hl
  by_cases hroom : r.nesting < r.limits.nestingDepth
  · have hroom' : (r.withLimits l).nesting < (r.withLimits l).limits.nestingDepth := by
      have hwide := hl.nestingDepth
      change r.nesting < (l.nestingDepth : Int)
      omega
    rw [nested_of_lt hroom, nested_of_lt hroom']
    refine Widens.andFinally hx ?_ ?_
      { r with nesting := r.nesting + 1, deepest := max r.deepest (r.nesting + 1) } l hl
    · exact fun _ => rfl
    · exact fun _ _ => rfl
  · rw [nested_of_le (Int.not_lt.mp hroom)]
    exact .cut r _ rfl

/-- Mixins are included under wider limits where they were included before. -/
theorem Widens.bounded (hx : Widens x) (keyword : Token) (first : String) (count : Nat) :
    Widens (Read.bounded keyword first count x) := by
  intro r l hl
  rw [bounded_run]
  by_cases hcut : r.limits.includeDepth < r.cursor.depth + count
  · rw [if_pos hcut]
    exact .cut r _ rfl
  · have hfits : ¬ (r.withLimits l).limits.includeDepth < (r.withLimits l).cursor.depth + count := by
      have hwide := hl.includeDepth
      change ¬ l.includeDepth < r.cursor.depth + count
      omega
    rw [if_neg hcut, bounded_run, if_neg hfits]
    exact hx r l hl

/-- Putting bodies in front does not look at the limits. -/
theorem widens_expand :
    ∀ instances : List (String × List Value), Widens (expand instances)
  | [] => fun _ _ hl => .result () hl
  | (name, body) :: rest => by
      have hrest := widens_expand rest
      rw [expand]
      refine .bind (fun _ _ hl => .result () hl) fun _ => .bind (fun r _ hl => ?_) fun depth => ?_
      · exact .result r.cursor.depth hl
      · exact .bind (fun _ _ hl => .result () hl) fun _ => hrest

/-- Wider limits change nothing but a stop at a limit, whatever a computation is made of. -/
theorem Composed.widens (h : Composed x) :
    Widens x := by
  induction h with
  | pure a => exact fun r l hl => .result a hl
  | bind _ _ ihx ihf => exact ihx.bind ihf
  | peek f => exact fun r l hl => .result (f r.cursor) hl
  | lookScopes f => exact fun r l hl => .result (f r.scopes) hl
  | fail d => exact fun r l _ => .stop (.fault d) r
  | failAt n cause => exact fun r l _ => .stop (.fault (r.cursor.faultAt n cause)) r
  | exhausted => exact fun r l _ => .stop .exhausted r
  | @scan _ y _ =>
      intro r l hl
      have hcursor : (r.withLimits l).cursor = r.cursor := rfl
      unfold Read.scan
      rw [hcursor]
      cases y r.cursor with
      | ok a c => exact .result a hl
      | error d c => exact .stop (.fault d) { r with cursor := c }
  | splice vs => exact fun r l hl => .result () hl
  | updateScopes g => exact fun r l hl => .result () hl
  | record e => exact fun r l hl => .result () hl
  | remember group => exact fun r l hl => .result () hl
  | nested _ ih => exact ih.nested
  | inScope _ ih =>
      intro r l hl
      rw [inScope_run, inScope_run]
      refine Widens.andFinally ih ?_ ?_ { r with scopes := r.scopes.enter } l hl
      · exact fun _ => rfl
      · exact fun _ _ => rfl
  | capturing names _ ih =>
      intro r l hl
      rw [capturing_run, capturing_run]
      refine Widens.andFinally ih ?_ ?_ { r with scopes := r.scopes.enterCapture names } l hl
      · exact fun _ => rfl
      · exact fun _ _ => rfl
  | within vs _ ih =>
      intro r l hl
      rw [within_run, within_run]
      refine Widens.andFinally ih ?_ ?_ { r with cursor := .ofValues vs r.cursor.depth } l hl
      · exact fun _ => rfl
      · exact fun _ _ => rfl
  | bounded keyword first instances => exact (widens_expand instances).bounded keyword first _

end Read

/-! ## Stylesheets -/

namespace Sheet

/-- Limits only ever cut off: a stylesheet that is read to an end without hitting a limit is read in
the same way, to the same tree or the same fault, under wider limits. -/
theorem parseTokens_of_wider {limits wider : Limits} (hwider : limits.Within wider) (budget : Nat)
    (file : String) (ts : List Token)
    (hends : ∀ stop, (parseTokens budget limits file ts).1 = .error stop → ¬ stop.IsCut) :
    parseTokens budget wider file ts = parseTokens budget limits file ts := by
  have hlist := ((Read.composed_bodies budget).ruleList []).widens (.ofTokens ts limits) wider hwider
  have hstart : (Reader.ofTokens ts limits).withLimits wider = .ofTokens ts wider := rfl
  rw [hstart] at hlist
  unfold parseTokens run at hends ⊢
  cases hrun : Read.ruleList budget [] (.ofTokens ts limits) with
  | ok rules s =>
      rw [hrun] at hlist
      generalize hrun' : Read.ruleList budget [] (.ofTokens ts wider) = o at hlist
      cases hlist with
      | result _ _ => rfl
  | error stop s =>
      rw [hrun] at hlist hends
      generalize hrun' : Read.ruleList budget [] (.ofTokens ts wider) = o at hlist
      cases hlist with
      | stop _ _ => rfl
      | @cut d _ _ hkind =>
          have hcut : (locate file (.fault d)).IsCut := by
            change (d.withFile file).kind = .recursionLimit
            unfold Diagnostic.withFile
            split
            · exact hkind
            · exact hkind
          exact (hends _ rfl hcut).elim

/-- A rule that includes a mixin. -/
def inclusion : List Token :=
  tokenize "@mixin m \x7b b: c; \x7d a \x7b @include m; \x7d"

/-- One block and one mixin at a time are enough for the inclusion, and then so is any more. -/
theorem parseTokens_of_wider_inclusion :
    (⟨1, 1⟩ : Limits).Within {} ∧ (parseTokens 100 ⟨1, 1⟩ "" inclusion).1.isOk = true ∧
      parseTokens 100 {} "" inclusion = parseTokens 100 ⟨1, 1⟩ "" inclusion := by
  have hwithin : (⟨1, 1⟩ : Limits).Within {} := ⟨by decide, by decide⟩
  have hok : (parseTokens 100 ⟨1, 1⟩ "" inclusion).1.isOk = true := by decide +kernel
  refine ⟨hwithin, hok, parseTokens_of_wider hwithin 100 "" inclusion ?_⟩
  intro stop hstop
  rw [hstop] at hok
  cases hok

end Sheet
end Cascade

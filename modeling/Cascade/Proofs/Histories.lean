import Cascade.Proofs.BodyEnds
import Cascade.Proofs.Expansions

/-!
# The history of a reader

A reader records what it did: the events of a trace, how deep blocks were nested and
which groups were read as they stood.  No computation looks at the record, so that two
readers which differ in it only do the same.

**Method.**  Every computation is composed of primitives (`Proofs.Composition`), and each
of them is `Oblivious`.  How deep the cursor stands is no matter of history: markers and
names correspond (`Proofs.Expansions`), and the depth that a cursor was made with stays.

**Results.**
* `Composed.oblivious`: the history of a reader changes nothing.
* `Composed.depth_of_ended`: at the end of a token list no mixin is being expanded.
-/

namespace Cascade

/-- The readers differ in their histories only. -/
structure Reader.SameState (r s : Reader) : Prop where
  cursor : s.cursor = r.cursor
  scopes : s.scopes = r.scopes
  nesting : s.nesting = r.nesting
  limits : s.limits = r.limits

namespace Read

variable {α β : Type} {x y : Read α} {r s : Reader}

/-! ## Computations -/

/-- The computation does the same for readers that differ in their histories only. -/
def Oblivious (x : Read α) : Prop :=
  ∀ r s : Reader, r.SameState s → Matched (fun _ => Reader.SameState) (x r) (x s)

theorem Matched.andFinally {R R' : α → Reader → Reader → Prop} (h : Matched R (x r) (y s))
    {f g : Reader → Reader} (hfg : ∀ a t u, R a t u → R' a (f t) (g u)) :
    Matched R' (andFinally x f r) (andFinally y g s) := by
  unfold Read.andFinally
  revert h
  generalize x r = o
  generalize y s = o'
  intro h
  cases h with
  | stopped => exact .stopped
  | result h => exact .result (hfg _ _ _ h)

theorem Oblivious.scan (x : Scan α) :
    Oblivious (scan x) := by
  intro r s h
  unfold Read.scan
  rw [h.cursor]
  cases x r.cursor with
  | ok a c => exact .result ⟨rfl, h.scopes, h.nesting, h.limits⟩
  | error d c => exact .stopped

theorem Oblivious.nested (hx : Oblivious x) :
    Oblivious (nested x) := by
  intro r s h
  by_cases hroom : r.nesting < r.limits.nestingDepth
  · have hroom' : s.nesting < s.limits.nestingDepth := by rwa [h.nesting, h.limits]
    rw [nested_of_lt hroom, nested_of_lt hroom']
    have hin := hx { r with nesting := r.nesting + 1, deepest := max r.deepest (r.nesting + 1) }
      { s with nesting := s.nesting + 1, deepest := max s.deepest (s.nesting + 1) }
      ⟨h.cursor, h.scopes, congrArg (· + 1) h.nesting, h.limits⟩
    exact hin.andFinally fun _ t u htu =>
      ⟨htu.cursor, htu.scopes, congrArg (· - 1) htu.nesting, htu.limits⟩
  · have hroom' : ¬ s.nesting < s.limits.nestingDepth := by rwa [h.nesting, h.limits]
    rw [nested_of_le (Int.not_lt.mp hroom), nested_of_le (Int.not_lt.mp hroom'), h.cursor, h.limits]
    exact .stopped

/-- A scope of its own around a computation. -/
theorem Oblivious.inNewScope (hx : Oblivious x) (f : Scopes → Scopes) (h : r.SameState s) :
    Matched (fun _ => Reader.SameState)
      (Read.andFinally x (fun r => { r with scopes := r.scopes.exit })
        { r with scopes := f r.scopes })
      (Read.andFinally x (fun r => { r with scopes := r.scopes.exit })
        { s with scopes := f s.scopes }) := by
  have hin := hx { r with scopes := f r.scopes } { s with scopes := f s.scopes }
    ⟨h.cursor, congrArg f h.scopes, h.nesting, h.limits⟩
  exact hin.andFinally fun _ t u htu =>
    ⟨htu.cursor, congrArg Scopes.exit htu.scopes, htu.nesting, htu.limits⟩

theorem oblivious_expand :
    ∀ instances : List (String × List Value), Oblivious (expand instances)
  | [], _, _, h => .result h
  | (name, body) :: rest, r, s, h => by
      have hcursor : s.cursor.spliceExpansion name body = r.cursor.spliceExpansion name body := by
        rw [h.cursor]
      exact oblivious_expand rest (r.including name body) (s.including name body)
        ⟨hcursor, h.scopes, h.nesting, h.limits⟩

theorem Oblivious.bounded (keyword : Token) (first : String)
    (instances : List (String × List Value)) :
    Oblivious (Read.bounded keyword first instances.length (expand instances)) := by
  intro r s h
  rw [bounded_run, bounded_run, h.cursor, h.limits]
  split
  · exact .stopped
  · exact oblivious_expand instances r s h

/-- The history of a reader changes nothing, whatever a computation is made of. -/
theorem Composed.oblivious (h : Composed x) :
    Oblivious x := by
  induction h with
  | pure a => exact fun _ _ h => .result h
  | bind _ _ ihx ihf => exact fun r s h => (ihx r s h).bind fun a t u htu => ihf a t u htu
  | peek f =>
      intro r s h
      rw [peek_run, peek_run, h.cursor]
      exact .result h
  | lookScopes f =>
      intro r s h
      change Matched _ (.ok (f r.scopes) r) (.ok (f s.scopes) s)
      rw [h.scopes]
      exact .result h
  | fail d => exact fun _ _ _ => .stopped
  | failAt n cause =>
      intro r s h
      change Matched _ (.error (.fault (r.cursor.faultAt n cause)) r)
        (.error (.fault (s.cursor.faultAt n cause)) s)
      rw [h.cursor]
      exact .stopped
  | exhausted => exact fun _ _ _ => .stopped
  | @scan _ y _ => exact Oblivious.scan y
  | splice vs =>
      exact fun _ _ h => .result ⟨congrArg (·.splice vs) h.cursor, h.scopes, h.nesting, h.limits⟩
  | updateScopes g =>
      exact fun _ _ h => .result ⟨h.cursor, congrArg g h.scopes, h.nesting, h.limits⟩
  | record | remember => exact fun _ _ h => .result ⟨h.cursor, h.scopes, h.nesting, h.limits⟩
  | nested _ ih => exact Oblivious.nested ih
  | inScope _ ih => exact fun _ _ h => Oblivious.inNewScope ih Scopes.enter h
  | capturing names _ ih =>
      exact fun _ _ h => Oblivious.inNewScope ih (Scopes.enterCapture · names) h
  | within vs _ ih =>
      intro r s h
      rw [within_run, within_run, h.cursor]
      have hin := ih { r with cursor := .ofValues vs r.cursor.depth }
        { s with cursor := .ofValues vs r.cursor.depth } ⟨rfl, h.scopes, h.nesting, h.limits⟩
      exact hin.andFinally fun _ t u htu => ⟨rfl, htu.scopes, htu.nesting, htu.limits⟩
  | bounded keyword first instances => exact Oblivious.bounded keyword first instances

end Read

/-! ## The depth of the cursor -/

theorem Cursor.baseDepth_next (c : Cursor) :
    c.next.2.baseDepth = c.baseDepth := by
  unfold Cursor.next
  split <;> rfl

namespace Reading

/-- The depth that the cursor behind all others was made with stays. -/
theorem baseDepth_of_step {s t : Reading} (h : Step s t) :
    t.cursors.getLast?.map Cursor.baseDepth = s.cursors.getLast?.map Cursor.baseDepth := by
  have hfront {c d : Cursor} (hcd : d.baseDepth = c.baseDepth) (w : List Cursor) :
      (d :: w).getLast?.map Cursor.baseDepth = (c :: w).getLast?.map Cursor.baseDepth := by
    cases w with
    | nil => exact congrArg some hcd
    | cons _ _ => rfl
  cases h with
  | next r w => exact hfront r.cursor.baseDepth_next w
  | skipWhitespace r w => exact hfront (c := r.cursor) (d := r.cursor.skipWhitespace) rfl w
  | splice r w vs => exact hfront (c := r.cursor) (d := r.cursor.splice vs) rfl w
  | @expand r s w mixin vs _ hcursor _ =>
      have hbase : s.cursor.baseDepth = r.cursor.baseDepth := hcursor ▸ rfl
      exact hfront hbase w
  | aside w hcursor _ => exact hfront (congrArg Cursor.baseDepth hcursor) w
  | enter | leave => rfl

theorem baseDepth_of_reaches {s t : Reading} (h : Reaches s t) :
    t.cursors.getLast?.map Cursor.baseDepth = s.cursors.getLast?.map Cursor.baseDepth := by
  induction h with
  | refl => rfl
  | tail _ hstep ih => exact (baseDepth_of_step hstep).trans ih

end Reading

/-- Where a token list has been read to its end, no mixin is being expanded. -/
theorem Read.Composed.depth_of_ended {α : Type} {x : Read α} (hx : Composed x) {ts : List Token}
    {limits : Limits} (hended : (x.after (.ofTokens ts limits)).cursor.items = []) :
    (x.after (.ofTokens ts limits)).cursor.depth = 0 := by
  have hreaches := hx.reaches (.ofTokens ts limits)
  have hstacked := Reading.stacked_of_reaches (Reading.stacked_ofTokens ts limits) hreaches
  have hnames : (x.after (.ofTokens ts limits)).cursor.items.filterMap Item.marker? =
      (x.after (.ofTokens ts limits)).cursor.expansions :=
    (hstacked.cursors _ List.mem_cons_self).names
  have hbase : some (x.after (.ofTokens ts limits)).cursor.baseDepth =
      some (Reader.ofTokens ts limits).cursor.baseDepth :=
    Reading.baseDepth_of_reaches hreaches
  have hstart : (Reader.ofTokens ts limits).cursor.baseDepth = 0 := by
    unfold Reader.ofTokens Cursor.ofTokens
    dsimp only
    split <;> rfl
  rw [hended] at hnames
  rw [Cursor.depth, Option.some.inj hbase, hstart, ← hnames]
  rfl

end Cascade

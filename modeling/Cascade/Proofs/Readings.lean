import Cascade.Proofs.Composition
import Mathlib.Logic.Relation

/-!
# Readings along the way

Before a computation ends it comes by many readers, and parts of it run on a cursor over
other values while the cursor before waits to be come back to.  This module says which
readers a computation comes by, with all cursors that are in use there.

**Method.**  `Read.ComesBy x s t` follows what `x` is made of (`Proofs.Composition`): the
parts of a sequence one after the other, each from where the one before it ended, and
what runs inside a bracket from the reader that the bracket hands on.  That reader is what
a look sees in place of the computation inside, so that whatever the bracket does to a
reader shows in what is come by.  `Reading.Step` has one constructor for each thing that
a primitive can do, whatever computation does so.

**Results.**
* `Read.Composed.path`: a run is a path of steps, all of them to readings that it comes by.
* `Read.ComesBy.reaches`: steps lead to every reading that a run comes by.
-/

namespace Cascade

/-! ## Cursors along the way -/

namespace Scan

variable {α β : Type}

/-- The scan of a cursor comes by another one. -/
inductive ComesBy : {α : Type} → Scan α → Cursor → Cursor → Prop
  | start {α : Type} (x : Scan α) (c : Cursor) : ComesBy x c c
  | finish {α : Type} {x : Scan α} (c : Cursor) : Composed x → ComesBy x c (x.after c)
  | first {α β : Type} {x : Scan α} {f : α → Scan β} {c d : Cursor} :
      ComesBy x c d → ComesBy (x >>= f) c d
  | second {α β : Type} {x : Scan α} {f : α → Scan β} {a : α} {c d e : Cursor} :
      Composed x → x c = .ok a d → ComesBy (f a) d e → ComesBy (x >>= f) c e

/-- One value is read, or the whitespace at the front. -/
def Hops (c d : Cursor) : Prop :=
  d = c.next.2 ∨ d = c.skipWhitespace

/-- From one cursor to another by hops, all of them to cursors that the scan comes by. -/
def Walks (x : Scan α) (c : Cursor) : Cursor → Cursor → Prop :=
  Relation.ReflTransGen fun d e => Hops d e ∧ ComesBy x c e

theorem Walks.mono {x : Scan α} {y : Scan β} {c c' d e : Cursor} (h : Walks x c d e)
    (hxy : ∀ u, ComesBy x c u → ComesBy y c' u) :
    Walks y c' d e :=
  Relation.ReflTransGen.mono (fun _ u hstep => ⟨hstep.1, hxy u hstep.2⟩) _ _ h

theorem Composed.walks {x : Scan α} (h : Composed x) (c : Cursor) :
    Walks x c c (x.after c) := by
  induction h generalizing c with
  | pure | look | failAt => exact .refl
  | @bind _ _ x f hx _ ihx ihf =>
      have hfirst : Walks (x >>= f) c c (x.after c) := (ihx c).mono fun _ => .first
      cases hrun : x c with
      | ok a d =>
          rw [after_ok hrun] at hfirst
          rw [after_bind_ok hrun]
          exact hfirst.trans ((ihf a d).mono fun _ => .second hx hrun)
      | error e d => rwa [after_bind_error hrun]
  | next => exact .single ⟨.inl rfl, .finish c .next⟩
  | skipWhitespace => exact .single ⟨.inr rfl, .finish c .skipWhitespace⟩
  | consume type what =>
      have hfinish := ComesBy.finish c (.consume type what)
      rcases after_consume type what c with hafter | hafter
      · rw [hafter]
        exact .refl
      · rw [hafter] at hfinish ⊢
        exact .single ⟨.inl rfl, hfinish⟩
  | consumeDelim text what =>
      have hfinish := ComesBy.finish c (.consumeDelim text what)
      rcases after_consumeDelim text what c with hafter | hafter
      · rw [hafter]
        exact .refl
      · rw [hafter] at hfinish ⊢
        exact .single ⟨.inl rfl, hfinish⟩

/-- Wherever a scan comes by, the cursor has been read from its front. -/
theorem ComesBy.forth {x : Scan α} {c d : Cursor} (h : ComesBy x c d) :
    c.Forth d := by
  induction h with
  | start => exact .refl
  | finish c hx => exact hx.forth c
  | first _ ih => exact ih
  | second hx hrun _ ih => exact (after_ok hrun ▸ hx.forth _).trans ih

end Scan

/-! ## Steps -/

/-- A reader with the cursors that are come back to when its own has been read, the latest first. -/
structure Reading where
  reader : Reader
  waiting : List Cursor

namespace Reading

/-- The start of reading a token list. -/
def ofTokens (ts : List Token) (limits : Limits) : Reading :=
  ⟨.ofTokens ts limits, []⟩

/-- All cursors in use. -/
def cursors (s : Reading) : List Cursor :=
  s.reader.cursor :: s.waiting

/-- The reading where a computation ends, by a result or by a stop. -/
def behind {α : Type} (x : Read α) (s : Reading) : Reading :=
  ⟨x.after s.reader, s.waiting⟩

/-- What a primitive of reading can do. -/
inductive Step : Reading → Reading → Prop
  | next (r : Reader) (w : List Cursor) : Step ⟨r, w⟩ ⟨{ r with cursor := r.cursor.next.2 }, w⟩
  | skipWhitespace (r : Reader) (w : List Cursor) :
      Step ⟨r, w⟩ ⟨{ r with cursor := r.cursor.skipWhitespace }, w⟩
  /-- Values are put in front, for a variable or an alias. -/
  | splice (r : Reader) (w : List Cursor) (vs : List Value) :
      Step ⟨r, w⟩ ⟨{ r with cursor := r.cursor.splice vs }, w⟩
  /-- The body of a mixin is put in front, if there is room for one more, and this is recorded. -/
  | expand {r s : Reader} (w : List Cursor) (mixin : String) (vs : List Value) :
      r.cursor.depth < r.limits.includeDepth → s.cursor = r.cursor.spliceExpansion mixin vs →
      s.limits = r.limits → Step ⟨r, w⟩ ⟨s, w⟩
  /-- Anything but the cursor and the limits changes. -/
  | aside {r s : Reader} (w : List Cursor) :
      s.cursor = r.cursor → s.limits = r.limits → Step ⟨r, w⟩ ⟨s, w⟩
  /-- Other values are read, which count as standing at most as deep as the cursor does. -/
  | enter {r : Reader} (w : List Cursor) (vs : List Value) {base : Nat} :
      base ≤ r.cursor.depth →
      Step ⟨r, w⟩ ⟨{ r with cursor := .ofValues vs base }, r.cursor :: w⟩
  /-- They have been read. -/
  | leave (r : Reader) (c : Cursor) (w : List Cursor) : Step ⟨r, c :: w⟩ ⟨{ r with cursor := c }, w⟩

/-- Reading can come from the first to the second. -/
abbrev Reaches : Reading → Reading → Prop :=
  Relation.ReflTransGen Step

end Reading

/-! ## Readings along the way -/

namespace Read

variable {α β : Type}

/-- The computation, started in a reading, comes by another one. -/
inductive ComesBy : {α : Type} → Read α → Reading → Reading → Prop
  | start {α : Type} (x : Read α) (s : Reading) : ComesBy x s s
  | finish {α : Type} {x : Read α} (s : Reading) : Composed x → ComesBy x s (s.behind x)
  | first {α β : Type} {x : Read α} {f : α → Read β} {s t : Reading} :
      ComesBy x s t → ComesBy (x >>= f) s t
  | second {α β : Type} {x : Read α} {f : α → Read β} {a : α} {r : Reader} {s t : Reading} :
      Composed x → x s.reader = .ok a r → ComesBy (f a) ⟨r, s.waiting⟩ t → ComesBy (x >>= f) s t
  | scan {α : Type} {x : Scan α} {r : Reader} {c : Cursor} (w : List Cursor) :
      x.ComesBy r.cursor c → ComesBy (scan x) ⟨r, w⟩ ⟨{ r with cursor := c }, w⟩
  /-- Some of the bodies have been put in front, where there is room for all of them. -/
  | bounded {r : Reader} {keyword : Token} {name : String}
      {front instances : List (String × List Value)} (w : List Cursor) :
      Read.bounded keyword name instances.length (Pure.pure ()) r = .ok () r → front <+: instances →
      ComesBy (Read.bounded keyword name instances.length (expand instances)) ⟨r, w⟩
        ⟨(expand front).after r, w⟩
  /-- Inside a bracket it starts in the reader that a look sees there. -/
  | nested {α : Type} {x : Read α} {r inside back : Reader} {w : List Cursor} {t : Reading} :
      Read.nested (look id) r = .ok inside back → ComesBy x ⟨inside, w⟩ t →
      ComesBy (Read.nested x) ⟨r, w⟩ t
  | inScope {α : Type} {x : Read α} {r inside back : Reader} {w : List Cursor} {t : Reading} :
      Read.inScope (look id) r = .ok inside back → ComesBy x ⟨inside, w⟩ t →
      ComesBy (Read.inScope x) ⟨r, w⟩ t
  | capturing {α : Type} {x : Read α} {r inside back : Reader} {w : List Cursor} {t : Reading}
      (names : List String) :
      Read.capturing names (look id) r = .ok inside back → ComesBy x ⟨inside, w⟩ t →
      ComesBy (Read.capturing names x) ⟨r, w⟩ t
  /-- While other values are read, the cursor before waits. -/
  | within {α : Type} {x : Read α} {r inside back : Reader} {w : List Cursor} {t : Reading}
      (vs : List Value) :
      Read.within vs (look id) r = .ok inside back → ComesBy x ⟨inside, r.cursor :: w⟩ t →
      ComesBy (Read.within vs x) ⟨r, w⟩ t

/-- From one reading to another by steps, all of them to readings that the computation comes by. -/
def Walks (x : Read α) (s : Reading) : Reading → Reading → Prop :=
  Relation.ReflTransGen fun t u => Reading.Step t u ∧ ComesBy x s u

theorem Walks.mono {x : Read α} {y : Read β} {s s' t u : Reading} (h : Walks x s t u)
    (hxy : ∀ v, ComesBy x s v → ComesBy y s' v) :
    Walks y s' t u :=
  Relation.ReflTransGen.mono (fun _ v hstep => ⟨hstep.1, hxy v hstep.2⟩) _ _ h

theorem Walks.scan {x : Scan α} (hx : x.Composed) (r : Reader) (w : List Cursor) :
    Walks (scan x) ⟨r, w⟩ ⟨r, w⟩ (Reading.behind (Read.scan x) ⟨r, w⟩) := by
  have hend : Reading.behind (Read.scan x) ⟨r, w⟩ = ⟨{ r with cursor := x.after r.cursor }, w⟩ := by
    unfold Reading.behind after Scan.after Read.scan
    cases x r.cursor <;> rfl
  rw [hend]
  refine (hx.walks r.cursor).lift (fun c => (⟨{ r with cursor := c }, w⟩ : Reading)) ?_
  rintro c d ⟨rfl | rfl, hd⟩
  · exact ⟨.next { r with cursor := c } w, .scan w hd⟩
  · exact ⟨.skipWhitespace { r with cursor := c } w, .scan w hd⟩

/-- A step into a bracket, a walk inside and a step out of it. -/
theorem Walks.bracket {x : Read α} {y : Read β} {s inside : Reading} (hy : Composed y)
    (hcomes : ∀ t, ComesBy x inside t → ComesBy y s t) (hin : Reading.Step s inside)
    (hrun : Walks x inside inside (inside.behind x))
    (hout : Reading.Step (inside.behind x) (s.behind y)) :
    Walks y s s (s.behind y) := by
  have hstart : Walks y s s inside := .single ⟨hin, hcomes _ (.start x inside)⟩
  exact (hstart.trans (hrun.mono hcomes)).tail ⟨hout, .finish s hy⟩

/-! ## Bodies put in front -/

theorem after_expand_append (front back : List (String × List Value)) (r : Reader) :
    (expand (front ++ back)).after r = (expand back).after ((expand front).after r) := by
  induction front generalizing r with
  | nil => rfl
  | cons first rest ih => exact ih ((expand [first]).after r)

theorem limits_after_expand (instances : List (String × List Value)) (r : Reader) :
    ((expand instances).after r).limits = r.limits := by
  induction instances generalizing r with
  | nil => rfl
  | cons first rest ih => exact ih ((expand [first]).after r)

/-- Each body is one more expansion under way. -/
theorem depth_after_expand (instances : List (String × List Value)) (r : Reader) :
    ((expand instances).after r).cursor.depth = r.cursor.depth + instances.length := by
  induction instances generalizing r with
  | nil => rfl
  | cons first rest ih =>
      have hrest := ih ((expand [first]).after r)
      have hfirst : ((expand [first]).after r).cursor.depth = r.cursor.depth + 1 := rfl
      rw [hfirst] at hrest
      rw [List.length_cons]
      change ((expand rest).after ((expand [first]).after r)).cursor.depth = _
      omega

/-- Where there is room for one more, its body is put in front in one step. -/
theorem step_expand (w : List Cursor) (first : String × List Value) {r : Reader}
    (hroom : r.cursor.depth < r.limits.includeDepth) :
    Reading.Step ⟨r, w⟩ ⟨(expand [first]).after r, w⟩ :=
  .expand w first.1 first.2 hroom rfl rfl

/-- There is room for all bodies where they are put in front. -/
theorem room_of_bounded {keyword : Token} {name : String} {count : Nat} {r : Reader}
    (h : Read.bounded keyword name count (Pure.pure ()) r = .ok () r) :
    r.cursor.depth + count ≤ r.limits.includeDepth := by
  rw [bounded_run] at h
  split at h
  · cases h
  · next hroom => exact Nat.not_lt.mp hroom

/-- Where there is room for all bodies, steps put them in front. -/
theorem reaches_expand (w : List Cursor) (instances : List (String × List Value)) {r : Reader}
    (hroom : r.cursor.depth + instances.length ≤ r.limits.includeDepth) :
    Reading.Reaches ⟨r, w⟩ ⟨(expand instances).after r, w⟩ := by
  induction instances generalizing r with
  | nil => exact .refl
  | cons first rest ih =>
      rw [List.length_cons] at hroom
      have hdepth : ((expand [first]).after r).cursor.depth = r.cursor.depth + 1 := rfl
      refine .head (step_expand w first (by omega)) (ih ?_)
      rw [hdepth, limits_after_expand]
      omega

theorem Walks.expand {keyword : Token} {name : String} {instances : List (String × List Value)}
    {r : Reader} {w : List Cursor}
    (hbounded : Read.bounded keyword name instances.length (Pure.pure ()) r = .ok () r)
    (front back : List (String × List Value)) (hsplit : instances = front ++ back) :
    Walks (Read.bounded keyword name instances.length (expand instances)) ⟨r, w⟩
      ⟨(Read.expand front).after r, w⟩ ⟨(Read.expand instances).after r, w⟩ := by
  induction back generalizing front with
  | nil =>
      rw [hsplit, List.append_nil]
      exact .refl
  | cons next rest ih =>
      have hroom := room_of_bounded hbounded
      rw [hsplit, List.length_append, List.length_cons] at hroom
      have hstep : Reading.Step ⟨(Read.expand front).after r, w⟩
          ⟨(Read.expand (front ++ [next])).after r, w⟩ := by
        rw [after_expand_append]
        refine step_expand w next ?_
        rw [depth_after_expand, limits_after_expand]
        omega
      have hfront : instances = (front ++ [next]) ++ rest := by rw [hsplit, List.append_assoc]; rfl
      have hprefix : front ++ [next] <+: instances := ⟨rest, hfront.symm⟩
      exact .head ⟨hstep, .bounded w hbounded hprefix⟩ (ih _ hfront)

/-! ## Paths -/

/-- What a computation does is a path of steps through readings that it comes by. -/
theorem Composed.path {x : Read α} (h : Composed x) (s : Reading) :
    Walks x s s (s.behind x) := by
  induction h generalizing s with
  | pure | peek | lookScopes | fail | failAt | exhausted => exact .refl
  | @bind _ _ x f hx _ ihx ihf =>
      have hfirst : Walks (x >>= f) s s (s.behind x) := (ihx s).mono fun _ => .first
      cases hrun : x s.reader with
      | ok a r =>
          have hx' : s.behind x = ⟨r, s.waiting⟩ := by rw [Reading.behind, after_ok hrun]
          have hend : s.behind (x >>= f) = Reading.behind (f a) ⟨r, s.waiting⟩ := by
            rw [Reading.behind, after_bind_ok hrun, Reading.behind]
          rw [hx'] at hfirst
          rw [hend]
          exact hfirst.trans ((ihf a ⟨r, s.waiting⟩).mono fun _ => .second hx hrun)
      | error e r =>
          have hend : s.behind (x >>= f) = s.behind x := by
            rw [Reading.behind, after_error (bind_error hrun), Reading.behind, after_error hrun]
          rwa [hend]
  | scan hx => exact .scan hx s.reader s.waiting
  | splice vs => exact .single ⟨.splice s.reader s.waiting vs, .finish s (.splice vs)⟩
  | updateScopes g => exact .single ⟨.aside s.waiting rfl rfl, .finish s (.updateScopes g)⟩
  | record e => exact .single ⟨.aside s.waiting rfl rfl, .finish s (.record e)⟩
  | remember group => exact .single ⟨.aside s.waiting rfl rfl, .finish s (.remember group)⟩
  | @nested _ x hx ih =>
      obtain ⟨r, w⟩ := s
      by_cases hroom : r.nesting < r.limits.nestingDepth
      · have hlook : Read.nested (look id) r = _ := nested_of_lt hroom
        refine .bracket hx.nested (fun t => .nested hlook) (.aside w rfl rfl) (ih _) ?_
        rw [Reading.behind, Reading.behind, after_congr (nested_of_lt hroom), after_andFinally]
        exact .aside w rfl rfl
      · have hend : Reading.behind (Read.nested x) ⟨r, w⟩ = ⟨r, w⟩ := by
          rw [Reading.behind, after_error (nested_of_le (Int.not_lt.mp hroom))]
        rw [hend]
        exact .refl
  | @inScope _ x hx ih =>
      obtain ⟨r, w⟩ := s
      have hlook : Read.inScope (look id) r = _ := inScope_run
      refine .bracket hx.inScope (fun t => .inScope hlook) (.aside w rfl rfl) (ih _) ?_
      rw [Reading.behind, Reading.behind, after_congr inScope_run, after_andFinally]
      exact .aside w rfl rfl
  | @capturing _ x names hx ih =>
      obtain ⟨r, w⟩ := s
      have hlook : Read.capturing names (look id) r = _ := capturing_run names
      refine .bracket (hx.capturing names) (fun t => .capturing names hlook) (.aside w rfl rfl)
        (ih _) ?_
      rw [Reading.behind, Reading.behind, after_congr (capturing_run names), after_andFinally]
      exact .aside w rfl rfl
  | @within _ x vs hx ih =>
      obtain ⟨r, w⟩ := s
      have hlook : Read.within vs (look id) r = _ := within_run vs
      refine .bracket (hx.within vs) (fun t => .within vs hlook) (.enter w vs (Nat.le_refl _))
        (ih _) ?_
      rw [Reading.behind, Reading.behind, after_congr (within_run vs), after_andFinally]
      exact .leave _ _ w
  | bounded keyword name instances =>
      obtain ⟨r, w⟩ := s
      have hrun := bounded_run keyword name instances.length (Read.expand instances) r
      have hcheck := bounded_run keyword name instances.length (Pure.pure ()) r
      by_cases hcut : r.limits.includeDepth < r.cursor.depth + instances.length
      · rw [if_pos hcut] at hrun
        rw [Reading.behind, after_error hrun]
        exact .refl
      · rw [if_neg hcut] at hrun hcheck
        rw [Reading.behind, after_congr hrun]
        exact .expand hcheck [] instances rfl

theorem Composed.reaches {x : Read α} (h : Composed x) (s : Reading) :
    Reading.Reaches s (s.behind x) :=
  Relation.ReflTransGen.mono (fun _ _ => And.left) _ _ (h.path s)

/-- Steps lead wherever a computation comes by. -/
theorem ComesBy.reaches {x : Read α} {s t : Reading} (h : ComesBy x s t) :
    Reading.Reaches s t := by
  induction h with
  | start => exact .refl
  | finish s hx => exact hx.reaches s
  | first _ ih => exact ih
  | @second _ _ x f a r s t hx hrun _ ih =>
      have hfirst := hx.reaches s
      rw [Reading.behind, after_ok hrun] at hfirst
      exact hfirst.trans ih
  | @scan _ x r c w hc =>
      have hforth := hc.forth
      clear hc
      induction hforth with
      | refl => exact .refl
      | @next d _ ih => exact ih.tail (.next { r with cursor := d } w)
      | @skipWhitespace d _ ih => exact ih.tail (.skipWhitespace { r with cursor := d } w)
  | @bounded r keyword name front instances w hbounded hfront =>
      obtain ⟨back, hsplit⟩ := hfront
      have hroom := room_of_bounded hbounded
      rw [← hsplit, List.length_append] at hroom
      exact reaches_expand w front (by omega)
  | @nested _ x r inside back w t hinside _ ih =>
      by_cases hroom : r.nesting < r.limits.nestingDepth
      · have hlook : Read.nested (look id) r = _ := nested_of_lt hroom
        cases hlook.symm.trans hinside
        refine .head ?_ ih
        exact .aside w rfl rfl
      · rw [nested_of_le (Int.not_lt.mp hroom)] at hinside
        cases hinside
  | inScope hinside _ ih =>
      cases inScope_run.symm.trans hinside
      refine .head ?_ ih
      exact .aside _ rfl rfl
  | capturing names hinside _ ih =>
      cases (capturing_run names).symm.trans hinside
      refine .head ?_ ih
      exact .aside _ rfl rfl
  | within vs hinside _ ih =>
      cases (within_run vs).symm.trans hinside
      exact .head (.enter _ vs (Nat.le_refl _)) ih

end Read
end Cascade

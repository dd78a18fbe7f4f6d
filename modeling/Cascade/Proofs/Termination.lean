import Cascade.Proofs.ExpansionOrder
import Cascade.Sheet.Parser
import Mathlib

/-!
# Termination of inclusion

A stylesheet without dollar signs and equals signs has no variables and no
aliases.  All it can do to itself is to include mixins, directly or through each
other, and the markers of the bodies under way are bounded.  This module shows
that reading such a stylesheet comes to an end: beyond some budget the outcome no
longer depends on the budget, and it is a result or a fault.

**Method.**  `Reader.Plain` is the invariant: no dollar sign, equals sign or
reference is left to read or stands in the body of a mixin, and the markers are
those of the expansions under way.  `Halts f r Q` says that the computation `f`
comes to an end from `r`.  Values are read by induction on what is left to read.
Statements are read by induction on the blocks that may still be opened, and
inside one block by induction on the rank of what is left to read.

**Results.**
* `haltsLists`, `halts_value`: values.
* `halts_includeMixins`: an inclusion lowers the rank.
* `haltsBodies`: bodies of all kinds.
* `parseTokens_terminates`: stylesheets.
-/

namespace Cascade

open Item (Past Pushed markers markers_map_value rank)

/-! ## Plain readers -/

/-- The token is neither a dollar sign nor an equals sign. -/
def Token.Plain (t : Token) : Prop :=
  t.isDelim "$" = false ∧ t.isDelim "=" = false

/-- No reference and no sign that makes one is in the value, or in a block in it. -/
inductive Value.Plain : Value → Prop
  | token {t : Token} : t.Plain → Plain (.token t)
  | block {opener : Token} {contents : List Value} {closer : Option Token} :
      (∀ v ∈ contents, Plain v) → Plain (.block opener contents closer)
  | call {name : Token} {args : List (List Value)} {commas : List Token} {closer : Option Token} :
      Plain (.call name args commas closer)

/-- A scope without aliases, the bodies of whose mixins are plain. -/
structure Scope.Plain (f : Scope) : Prop where
  aliases : f.aliases = []
  mixins : ∀ e ∈ f.mixins, ∀ v ∈ e.2.body, v.Plain

structure Cursor.Plain (c : Cursor) : Prop where
  rest : ∀ v ∈ c.rest, v.Plain
  expansions : c.expansions.length = markers c.items

structure Reader.Plain (r : Reader) : Prop where
  cursor : r.cursor.Plain
  frames : ∀ f ∈ r.scopes.frames, f.Plain
  room : markers r.cursor.items ≤ r.limits.includeDepth

theorem Value.Plain.isDelim {v : Value} (h : v.Plain) :
    v.isDelim "$" = false ∧ v.isDelim "=" = false := by
  cases h with
  | token ht => exact ht
  | block _ => exact ⟨rfl, rfl⟩
  | call => exact ⟨rfl, rfl⟩

namespace Cursor

theorem Plain.checkDelim {c : Cursor} (h : c.Plain) (n : Nat) :
    c.checkDelim n "$" = false ∧ c.checkDelim n "=" = false := by
  unfold Cursor.checkDelim
  rw [peek_eq_getElem?]
  cases hv : c.rest[n]? with
  | none => exact ⟨rfl, rfl⟩
  | some v => exact (h.rest v (List.mem_of_getElem? hv)).isDelim

theorem Plain.peek {c : Cursor} (h : c.Plain) {n : Nat} {v : Value} (hv : c.peek n = some v) :
    v.Plain := by
  rw [peek_eq_getElem?] at hv
  exact h.rest v (List.mem_of_getElem? hv)

theorem Plain.ofPast {c d : Cursor} (h : c.Plain) (hpast : Past c.items d.items)
    (hexpansions : d.expansions.length = markers d.items) :
    d.Plain :=
  ⟨fun v hv => h.rest v (hpast.subset v hv), hexpansions⟩

theorem dropMarkers_spec (items : List Item) (names : List String)
    (h : names.length = markers items) :
    (∃ x, items = x ++ (dropMarkers items names).1) ∧
      (dropMarkers items names).2.length = markers (dropMarkers items names).1 := by
  fun_induction dropMarkers items names with
  | case1 m rest names ih =>
      have hrest : names.tail.length = markers rest := by
        simp only [markers] at h
        simp [h]
      obtain ⟨⟨x, hx⟩, hnames⟩ := ih hrest
      exact ⟨⟨.marker m :: x, by rw [List.cons_append, ← hx]⟩, hnames⟩
  | case2 items names _ => exact ⟨⟨[], rfl⟩, h⟩

/-- Reading passes the front value and keeps the markers in step with the expansions. -/
theorem Plain.next {c : Cursor} (h : c.Plain) {v : Value} (hv : c.peek 0 = some v) :
    c.next.2.Plain ∧ Past c.items c.next.2.items := by
  have hfirst : c.next.1 = some v := by
    rw [next_fst, List.head?_eq_getElem?, ← peek_eq_getElem?, hv]
  obtain ⟨⟨x, hx⟩, hnames⟩ := dropMarkers_spec c.items c.expansions h.expansions
  rcases hdrop : dropMarkers c.items c.expansions with ⟨_ | ⟨u | m, rest⟩, names⟩
  · simp [Cursor.next, hdrop] at hfirst
  · rw [hdrop] at hx hnames
    have hnext : c.next.2 = { c with items := rest, expansions := names, last := u.start } := by
      simp [Cursor.next, hdrop]
    have hpast : Past c.items c.next.2.items := by
      rw [hnext]
      exact ⟨x, u, hx⟩
    refine ⟨h.ofPast hpast ?_, hpast⟩
    rw [hnext]
    exact hnames
  · simp [Cursor.next, hdrop] at hfirst

/-- Whitespace at the front is read; what starts with another value stays as it is. -/
theorem skipBlanks_spec (items : List Item) (names : List String) (last : Position)
    (h : names.length = markers items) :
    ((Item.first? items).any Value.isWhitespace = true →
        Past items (skipBlanks items names last).1) ∧
      ((Item.first? items).any Value.isWhitespace = false →
        (skipBlanks items names last).1 = items) ∧
      (skipBlanks items names last).2.1.length = markers (skipBlanks items names last).1 := by
  fun_induction skipBlanks items names last with
  | case1 names last => exact ⟨by simp [Item.first?], fun _ => rfl, h⟩
  | case2 v rest names last hblank ih =>
      obtain ⟨hyes, hno, hnames⟩ := ih h
      refine ⟨fun _ => ?_, by simp [Item.first?, hblank], hnames⟩
      by_cases hrest : (Item.first? rest).any Value.isWhitespace = true
      · exact (hyes hrest).cons _
      · rw [hno (by simpa using hrest)]
        exact .value v rest
  | case3 v rest names last hblank => exact ⟨by simp [Item.first?, hblank], fun _ => rfl, h⟩
  | case4 m rest names last hblank ih =>
      have hrest : names.tail.length = markers rest := by
        simp only [markers] at h
        simp [h]
      obtain ⟨hyes, _, hnames⟩ := ih hrest
      refine ⟨fun _ => (hyes hblank).cons _, ?_, hnames⟩
      simp [Item.first?, hblank]
  | case5 m rest names last hblank => exact ⟨by simp [Item.first?, hblank], fun _ => rfl, h⟩

theorem Plain.skipWhitespace {c : Cursor} (h : c.Plain) :
    c.skipWhitespace.Plain ∧
      (c.skipWhitespace.items = c.items ∨ Past c.items c.skipWhitespace.items) := by
  obtain ⟨hyes, hno, hnames⟩ := skipBlanks_spec c.items c.expansions c.last h.expansions
  have hrest : ∀ v ∈ c.skipWhitespace.rest, v.Plain := by
    intro v hv
    rw [rest_skipWhitespace] at hv
    exact h.rest v ((List.dropWhile_sublist _).subset hv)
  refine ⟨⟨hrest, hnames⟩, ?_⟩
  by_cases hblank : (Item.first? c.items).any Value.isWhitespace = true
  · exact .inr (hyes hblank)
  · exact .inl (hno (by simpa using hblank))

end Cursor

/-! ## Steps of a reader -/

/-- The reader `s` is plain, and what is left to read has the relation to what `r` had to read. -/
structure Leads (rel : List Item → List Item → Prop) (r s : Reader) : Prop where
  plain : s.Plain
  limits : s.limits = r.limits
  nesting : s.nesting = r.nesting
  items : rel r.cursor.items s.cursor.items

/-- Some values may have been read. -/
abbrev Reads : Reader → Reader → Prop :=
  Leads fun s t => t = s ∨ Past s t

/-- At least one value has been read. -/
abbrev Advances : Reader → Reader → Prop :=
  Leads Past

/-- At least one value has been read, or all of them. -/
abbrev Leaves : Reader → Reader → Prop :=
  Leads fun s t => ∃ u, Past s u ∧ (t = u ∨ t = [])

/-- Some values may have been read, or all of them. -/
abbrev Passes : Reader → Reader → Prop :=
  Leads fun s t => t = s ∨ Past s t ∨ t = []

/-- At least one value has been read, and bodies of mixins may have been put in front then. -/
abbrev Includes : Reader → Reader → Prop :=
  Leads fun s t => ∃ u, Past s u ∧ Pushed u t

/-- The rank of what is left to read has become smaller. -/
abbrev Falls (limit : Nat) : Reader → Reader → Prop :=
  Leads fun s t => rank limit t < rank limit s

/-- What is left to read may be anything. -/
abbrev Keeps : Reader → Reader → Prop :=
  Leads fun _ _ => True

namespace Leads

variable {r s t : Reader}

theorem trans {P Q R : List Item → List Item → Prop} (h : Leads P r s) (k : Leads Q s t)
    (hrel : ∀ {a b c}, P a b → Q b c → R a c) :
    Leads R r t :=
  ⟨k.plain, k.limits.trans h.limits, k.nesting.trans h.nesting, hrel h.items k.items⟩

theorem refl (h : r.Plain) :
    Reads r r :=
  ⟨h, rfl, rfl, .inl rfl⟩

theorem reads (h : Advances r s) :
    Reads r s :=
  ⟨h.plain, h.limits, h.nesting, .inr h.items⟩

theorem readThenRead (h : Reads r s) (k : Reads s t) :
    Reads r t := by
  refine h.trans k ?_
  rintro a b c (rfl | hab) (rfl | hbc)
  · exact .inl rfl
  · exact .inr hbc
  · exact .inr hab
  · exact .inr (hab.trans hbc)

theorem readThenAdvance (h : Reads r s) (k : Advances s t) :
    Advances r t := by
  refine h.trans k ?_
  rintro a b c (rfl | hab) hbc
  · exact hbc
  · exact hab.trans hbc

theorem advanceThenRead (h : Advances r s) (k : Reads s t) :
    Advances r t := by
  refine h.trans k ?_
  rintro a b c hab (rfl | hbc)
  · exact hab
  · exact hab.trans hbc

theorem leaves (h : Advances r s) :
    Leaves r s :=
  ⟨h.plain, h.limits, h.nesting, _, h.items, .inl rfl⟩

theorem readThenLeave (h : Reads r s) (k : Leaves s t) :
    Leaves r t := by
  refine h.trans k ?_
  rintro a b c (rfl | hab) ⟨u, hbu, hc⟩
  · exact ⟨u, hbu, hc⟩
  · exact ⟨u, hab.trans hbu, hc⟩

theorem readThenPass (h : Reads r s) (k : Passes s t) :
    Passes r t := by
  refine h.trans k ?_
  rintro a b c (rfl | hab) (rfl | hbc | hc)
  · exact .inl rfl
  · exact .inr (.inl hbc)
  · exact .inr (.inr hc)
  · exact .inr (.inl hab)
  · exact .inr (.inl (hab.trans hbc))
  · exact .inr (.inr hc)

theorem advanceThenPass (h : Advances r s) (k : Passes s t) :
    Leaves r t := by
  refine h.trans k ?_
  rintro a b c hab (rfl | hbc | hc)
  · exact ⟨_, hab, .inl rfl⟩
  · exact ⟨_, hab.trans hbc, .inl rfl⟩
  · exact ⟨_, hab, .inr hc⟩

theorem passes (h : Reads r s) :
    Passes r s := by
  refine ⟨h.plain, h.limits, h.nesting, ?_⟩
  rcases h.items with heq | hpast
  · exact .inl heq
  · exact .inr (.inl hpast)

theorem passes_of_leaves (h : Leaves r s) :
    Passes r s := by
  refine ⟨h.plain, h.limits, h.nesting, ?_⟩
  rcases h.items with ⟨u, hpast, heq | hnil⟩
  · exact .inr (.inl (heq ▸ hpast))
  · exact .inr (.inr hnil)

theorem includes (h : Advances r s) :
    Includes r s :=
  ⟨h.plain, h.limits, h.nesting, _, h.items, .refl⟩

theorem readThenInclude (h : Reads r s) (k : Includes s t) :
    Includes r t := by
  refine h.trans k ?_
  rintro a b c (rfl | hab) ⟨u, hbu, huc⟩
  · exact ⟨u, hbu, huc⟩
  · exact ⟨u, hab.trans hbu, huc⟩

theorem keeps {rel : List Item → List Item → Prop} (h : Leads rel r s) :
    Keeps r s :=
  ⟨h.plain, h.limits, h.nesting, trivial⟩

theorem thenKeep {rel : List Item → List Item → Prop} (h : Leads rel r s) (k : Keeps s t) :
    Keeps r t :=
  h.trans k fun _ _ => trivial

theorem falls_of_includes {limit : Nat} (h : Includes r s) (hr : r.Plain)
    (hlimit : r.limits.includeDepth = limit) :
    Falls limit r s := by
  obtain ⟨u, hpast, hpushed⟩ := h.items
  have hroom : markers u ≤ limit := hlimit ▸ Nat.le_trans hpast.markers_le hr.room
  exact ⟨h.plain, h.limits, h.nesting, Item.rank_lt_of_pushed hpast hpushed hroom⟩

theorem falls_of_leaves {limit : Nat} (h : Leaves r s) (hr : r.Plain)
    (hlimit : r.limits.includeDepth = limit) :
    Falls limit r s := by
  obtain ⟨u, hpast, heq | hnil⟩ := h.items
  · have hroom : markers u ≤ limit := hlimit ▸ Nat.le_trans hpast.markers_le hr.room
    refine ⟨h.plain, h.limits, h.nesting, ?_⟩
    rw [heq]
    exact Item.rank_lt_of_past hpast hroom
  · have hroom : markers u ≤ limit := hlimit ▸ Nat.le_trans hpast.markers_le hr.room
    refine ⟨h.plain, h.limits, h.nesting, ?_⟩
    rw [hnil]
    exact Item.rank_nil_lt hpast hroom

theorem length_lt (h : Advances r s) :
    s.cursor.rest.length < r.cursor.rest.length :=
  h.items.length_lt

/-- Reading with the cursor. -/
theorem ofCursor {rel : List Item → List Item → Prop} {c : Cursor} (h : r.Plain) (hc : c.Plain)
    (hroom : markers c.items ≤ markers r.cursor.items) (hrel : rel r.cursor.items c.items) :
    Leads rel r { r with cursor := c } :=
  ⟨⟨hc, h.frames, Nat.le_trans hroom h.room⟩, rfl, rfl, hrel⟩

end Leads

/-! ## Computations that come to an end -/

namespace Read

variable {α β : Type} {r s : Reader} {P : α → Reader → Prop} {Q : β → Reader → Prop}

/-- The outcome is a result with the property, or a fault. -/
def Meets (P : α → Reader → Prop) : EStateM.Result Stop Reader α → Prop
  | .ok a s => P a s
  | .error e _ => e ≠ .exhausted

/-- Beyond some budget the outcome is always the same, and it is a result with the property or a
fault. -/
def Halts (f : Nat → Read α) (r : Reader) (P : α → Reader → Prop) : Prop :=
  ∃ bound outcome, Meets P outcome ∧ ∀ n, bound ≤ n → f n r = outcome

theorem Meets.mono {P P' : α → Reader → Prop} {o : EStateM.Result Stop Reader α} (h : Meets P o)
    (hmono : ∀ a s, P a s → P' a s) :
    Meets P' o := by
  cases o with
  | ok a s => exact hmono a s h
  | error e s => exact h

theorem Meets.bind {x : Read α} {f : α → Read β} (hx : Meets P (x r))
    (hf : ∀ a s, P a s → Meets Q (f a s)) :
    Meets Q ((x >>= f) r) := by
  cases hrun : x r with
  | ok a s =>
      rw [hrun] at hx
      rw [bind_ok hrun]
      exact hf a s hx
  | error e s =>
      rw [hrun] at hx
      rw [bind_error hrun]
      exact hx

theorem Halts.mono {P' : α → Reader → Prop} {f : Nat → Read α} (h : Halts f r P)
    (hmono : ∀ a s, P a s → P' a s) :
    Halts f r P' := by
  obtain ⟨bound, o, ho, hrun⟩ := h
  exact ⟨bound, o, ho.mono hmono, hrun⟩

theorem Halts.const {x : Read α} (h : Meets P (x r)) :
    Halts (fun _ => x) r P :=
  ⟨0, x r, h, fun _ _ => rfl⟩

theorem Halts.pure {a : α} (h : P a r) :
    Halts (fun _ => Pure.pure a) r P :=
  .const h

theorem Halts.failAt {n : Nat} {cause : Cause} :
    Halts (fun _ => (Read.failAt n cause : Read α)) r P :=
  .const (by rintro ⟨⟩)

theorem Halts.fail {d : Diagnostic} :
    Halts (fun _ => (Read.fail d : Read α)) r P :=
  .const (by rintro ⟨⟩)

/-- One more unit of budget is used up by the definition itself. -/
theorem Halts.succ {f g : Nat → Read α} (hstep : ∀ n, f (n + 1) = g n) (h : Halts g r P) :
    Halts f r P := by
  obtain ⟨bound, o, ho, hrun⟩ := h
  refine ⟨bound + 1, o, ho, ?_⟩
  intro n hn
  obtain ⟨m, rfl⟩ : ∃ m, n = m + 1 := ⟨n - 1, by omega⟩
  rw [hstep m]
  exact hrun m (by omega)

theorem Halts.bind {f : Nat → Read α} {g : Nat → α → Read β} (hf : Halts f r P)
    (hg : ∀ a s, P a s → Halts (fun n => g n a) s Q) :
    Halts (fun n => f n >>= g n) r Q := by
  obtain ⟨bound, o, ho, hrun⟩ := hf
  cases o with
  | error e s =>
      refine ⟨bound, .error e s, ho, ?_⟩
      intro n hn
      exact bind_error (hrun n hn)
  | ok a s =>
      obtain ⟨bound', o', ho', hrun'⟩ := hg a s ho
      refine ⟨max bound bound', o', ho', ?_⟩
      intro n hn
      exact (bind_ok (hrun n (by omega))).trans (hrun' n (by omega))

/-- The first part does not depend on the budget. -/
theorem Halts.after {x : Read α} {g : Nat → α → Read β} (hx : Meets P (x r))
    (hg : ∀ a s, P a s → Halts (fun n => g n a) s Q) :
    Halts (fun n => x >>= g n) r Q :=
  .bind (.const hx) hg

theorem Halts.peek {f : Cursor → α} {g : Nat → α → Read β}
    (h : Halts (fun n => g n (f r.cursor)) r Q) :
    Halts (fun n => Read.peek f >>= g n) r Q :=
  .after (P := fun a s => a = f r.cursor ∧ s = r) ⟨rfl, rfl⟩ (by rintro _ _ ⟨rfl, rfl⟩; exact h)

theorem Halts.pureBind {a : α} {g : Nat → α → Read β} (h : Halts (fun n => g n a) r Q) :
    Halts (fun n => (Pure.pure a : Read α) >>= g n) r Q :=
  h

/-- Behind a fault nothing runs. -/
theorem Halts.failAtBind {n : Nat} {cause : Cause} {g : Nat → α → Read β} :
    Halts (fun n' => (Read.failAt n cause : Read α) >>= g n') r Q :=
  .bind (P := fun _ _ => False) .failAt fun _ _ hfalse => hfalse.elim

theorem Halts.look {f : Reader → α} {g : Nat → α → Read β} (h : Halts (fun n => g n (f r)) r Q) :
    Halts (fun n => Read.look f >>= g n) r Q :=
  .after (P := fun a s => a = f r ∧ s = r) ⟨rfl, rfl⟩ (by rintro _ _ ⟨rfl, rfl⟩; exact h)

/-! ## Brackets -/

theorem Halts.andFinally {f : Nat → Read α} {g : Reader → Reader}
    (h : Halts f r fun a s => P a (g s)) :
    Halts (fun n => Read.andFinally (f n) g) r P := by
  obtain ⟨bound, o, ho, hrun⟩ := h
  cases o with
  | ok a s =>
      refine ⟨bound, .ok a (g s), ho, ?_⟩
      intro n hn
      exact andFinally_ok (hrun n hn)
  | error e s =>
      refine ⟨bound, .error e (g s), ho, ?_⟩
      intro n hn
      exact andFinally_error (hrun n hn)

/-- The outcomes are the same from one reader to another. -/
theorem Halts.of_run {f g : Nat → Read α} (hrun : ∀ n, f n r = g n s) (h : Halts g s P) :
    Halts f r P := by
  obtain ⟨bound, o, ho, hg⟩ := h
  exact ⟨bound, o, ho, fun n hn => (hrun n).trans (hg n hn)⟩

theorem Halts.nested {f : Nat → Read α}
    (h : r.nesting < r.limits.nestingDepth →
      Halts f { r with nesting := r.nesting + 1, deepest := max r.deepest (r.nesting + 1) }
        fun a s => P a { s with nesting := s.nesting - 1 }) :
    Halts (fun n => Read.nested (f n)) r P := by
  by_cases hroom : r.nesting < r.limits.nestingDepth
  · exact .of_run (fun n => nested_of_lt hroom) (.andFinally (h hroom))
  · have hfull := Int.not_lt.mp hroom
    exact ⟨0, _, by rintro ⟨⟩, fun n _ => nested_of_le hfull⟩

theorem Halts.inScope {f : Nat → Read α}
    (h : Halts f { r with scopes := r.scopes.enter } fun a s => P a { s with scopes := s.scopes.exit }) :
    Halts (fun n => Read.inScope (f n)) r P :=
  .of_run (fun _ => inScope_run) (.andFinally h)

theorem Halts.capturing {f : Nat → Read α} (names : List String)
    (h : Halts f { r with scopes := r.scopes.enterCapture names }
      fun a s => P a { s with scopes := s.scopes.exit }) :
    Halts (fun n => Read.capturing names (f n)) r P :=
  .of_run (fun _ => capturing_run names) (.andFinally h)

theorem Halts.within {f : Nat → Read α} (vs : List Value)
    (h : Halts f { r with cursor := .ofValues vs r.cursor.depth }
      fun a s => P a { s with cursor := r.cursor }) :
    Halts (fun n => Read.within vs (f n)) r P :=
  .of_run (fun _ => within_run vs) (.andFinally h)

end Read

theorem Scopes.mem_frames_exit {s : Scopes} {f : Scope} (h : f ∈ s.exit.frames) :
    f ∈ s.frames := by
  unfold Scopes.exit Scopes.exit? at h
  split at h
  · exact h
  · next frame rest houter =>
      rw [Scopes.frames, houter]
      exact List.mem_cons_of_mem _ h

theorem Scope.plain_empty (names : List String) (isCapture : Bool) :
    Scope.Plain { parameters := names, isCapture := isCapture } :=
  ⟨rfl, nofun⟩

/-- A plain reader stays one in a scope of its own. -/
theorem Reader.Plain.inScope {r : Reader} (h : r.Plain) {frame : Scope} (hframe : frame.Plain) :
    Reader.Plain { r with scopes := ⟨frame, r.scopes.frames⟩ } := by
  refine { h with frames := ?_ }
  intro f hf
  rcases List.mem_cons.mp hf with rfl | hf
  · exact hframe
  · exact h.frames f hf

namespace Leads

variable {rel : List Item → List Item → Prop} {r s : Reader}

theorem unnest {depth : Int} (h : Leads rel { r with nesting := r.nesting + 1, deepest := depth } s) :
    Leads rel r { s with nesting := s.nesting - 1 } := by
  refine ⟨{ h.plain with }, h.limits, ?_, h.items⟩
  have hnesting := h.nesting
  simp only at hnesting ⊢
  omega

theorem exit {scopes : Scopes} (h : Leads rel { r with scopes := scopes } s) :
    Leads rel r { s with scopes := s.scopes.exit } :=
  ⟨{ h.plain with frames := fun f hf => h.plain.frames f (Scopes.mem_frames_exit hf) }, h.limits,
    h.nesting, h.items⟩

end Leads

/-! ## Values -/

namespace Cursor

theorem peek_of_peekToken {c : Cursor} {n : Nat} {t : Token} (h : c.peekToken n = some t) :
    c.peek n = some (.token t) := by
  unfold peekToken at h
  split at h
  · next hpeek =>
      cases h
      exact hpeek
  · cases h

end Cursor

namespace Read

variable {α β : Type} {r : Reader}

theorem advances_next (h : r.Plain) {v : Value} (hv : r.cursor.peek 0 = some v) :
    Advances r { r with cursor := r.cursor.next.2 } := by
  obtain ⟨hplain, hpast⟩ := h.cursor.next hv
  exact .ofCursor h hplain hpast.markers_le hpast

theorem meets_next (h : r.Plain) {v : Value} (hv : r.cursor.peek 0 = some v) :
    Meets (fun u s => u = some v ∧ Advances r s) (next r) := by
  rw [next_of_peek hv]
  exact ⟨rfl, advances_next h hv⟩

theorem meets_pass (h : r.Plain) {v : Value} (hv : r.cursor.peek 0 = some v) :
    Meets (fun u s => u = some v ∧ Advances r s) ((do remember v; next) r) := by
  have hs := advances_next h hv
  rw [pass_of_peek hv]
  exact ⟨rfl, { hs.plain with }, hs.limits, hs.nesting, hs.items⟩

theorem meets_skipWhitespace (h : r.Plain) :
    Meets (fun _ s => Reads r s) (skipWhitespace r) := by
  obtain ⟨hplain, hitems⟩ := h.cursor.skipWhitespace
  refine Leads.ofCursor h hplain ?_ hitems
  rcases hitems with heq | hpast
  · rw [heq]
  · exact hpast.markers_le

theorem meets_consume (h : r.Plain) (type : TokenType) (what : String) :
    Meets (fun _ s => Advances r s) (scan (Scan.consume type what) r) := by
  unfold scan Scan.consume
  cases hfront : r.cursor.peekToken 0 with
  | none => rintro ⟨⟩
  | some t =>
      by_cases htype : t.type = type
      · simp only [htype, if_true]
        exact advances_next h (Cursor.peek_of_peekToken hfront)
      · simp only [htype, if_false]
        rintro ⟨⟩

theorem scan_bind (x : Scan α) (f : α → Scan β) (r : Reader) :
    scan (x >>= f) r = (scan x >>= fun a => scan (f a)) r := by
  change scan (EStateM.bind x f) r = EStateM.bind (scan x) (fun a => scan (f a)) r
  cases hx : x r.cursor with
  | ok a c => simp [scan, EStateM.bind, hx]
  | error d c => simp [scan, EStateM.bind, hx]

theorem meets_opener (h : r.Plain) :
    Meets (fun _ s => Advances r s) (scan Scan.opener r) := by
  cases hfront : r.cursor.peekToken 0 with
  | none =>
      have hrun : Scan.opener r.cursor = .error (r.cursor.faultAt 0 .noBracket) r.cursor := by
        simp [Scan.opener, Scan.look, Scan.failAt, bind, EStateM.bind, hfront]
      simp only [scan, hrun]
      rintro ⟨⟩
  | some t =>
      cases hpartner : t.type.partner? with
      | none =>
          have hrun : Scan.opener r.cursor =
              .error (r.cursor.faultAt 0 (.notOpener t.type)) r.cursor := by
            simp [Scan.opener, Scan.look, Scan.failAt, bind, EStateM.bind, hfront, hpartner]
          simp only [scan, hrun]
          rintro ⟨⟩
      | some closer =>
          have hrun : Scan.opener r.cursor = .ok (t, closer) r.cursor.next.2 := by
            simp [Scan.opener, Scan.look, Scan.next, bind, EStateM.bind, pure, EStateM.pure, hfront,
              hpartner]
          simp only [scan, hrun]
          exact advances_next h (Cursor.peek_of_peekToken hfront)

/-- What the end of a value list may answer: a result, or that the list goes on with one more value. -/
def Ended (R : β → Reader → Reader → Prop) (r : Reader) : Option β → Reader → Prop
  | some b, s => R b r s
  | none, s => s = r ∧ ∃ v, r.cursor.peek 0 = some v

/-- The end of a list of plain values. -/
structure EndsIn (ending : List Value → Read (Option β)) (R : β → Reader → Reader → Prop) :
    Prop where
  meets : ∀ {read : List Value} {r : Reader}, r.Plain → (∀ v ∈ read, v.Plain) →
    Meets (Ended R r) (ending read r)
  trans : ∀ {b : β} {r s t : Reader}, Reads r s → R b s t → R b r t

/-- Lists of values come to an end from a reader. -/
structure HaltsLists (r : Reader) : Prop where
  collect : ∀ {β : Type} {ending : List Value → Read (Option β)} {R : β → Reader → Reader → Prop},
    EndsIn ending R → ∀ read : List Value, (∀ v ∈ read, v.Plain) →
      Halts (fun n => collect n ending read) r fun b s => R b r s
  arguments : ∀ (name : Token) (state : CallState),
    Halts (fun n => arguments n name state) r fun _ s => Reads r s

/-- Lists of values come to an end wherever less is left to read. -/
def HaltsBehind (r : Reader) : Prop :=
  ∀ s, s.Plain → s.cursor.rest.length < r.cursor.rest.length → HaltsLists s

theorem meets_blockEnd (opener : Token) (closer : TokenType) (h : r.Plain) {read : List Value}
    (hread : ∀ v ∈ read, v.Plain) :
    Meets (Ended (fun b r s => (∀ v ∈ b.contents, v.Plain) ∧ Reads r s) r)
      (blockEnd opener closer read r) := by
  have hcontents : ∀ v ∈ read.reverse, v.Plain := fun v hv => hread v (List.mem_reverse.mp hv)
  unfold blockEnd
  rw [bind_ok (peek_run _ r)]
  cases hfront : r.cursor.peek 0 with
  | none => exact ⟨hcontents, .refl h⟩
  | some v =>
      by_cases htype : v.hasType closer = true
      · simp only [htype, if_true]
        rw [bind_ok (next_of_peek hfront)]
        exact ⟨hcontents, (advances_next h hfront).reads⟩
      · simp only [htype]
        exact ⟨rfl, v, hfront⟩

theorem endsIn_blockEnd (opener : Token) (closer : TokenType) :
    EndsIn (blockEnd opener closer) fun b r s => (∀ v ∈ b.contents, v.Plain) ∧ Reads r s :=
  ⟨fun h hread => meets_blockEnd opener closer h hread, fun hrs hst => ⟨hst.1, hrs.readThenRead hst.2⟩⟩

theorem halts_block_of (ih : HaltsBehind r) (h : r.Plain) :
    Halts block r fun b s => (∀ v ∈ b.contents, v.Plain) ∧ Advances r s := by
  refine .succ (fun n => by rw [block]) (.after (meets_opener h) ?_)
  rintro ⟨opener, closer⟩ s hs
  refine .nested fun _ => .inScope ?_
  have hin : Reader.Plain { s with
      nesting := s.nesting + 1, deepest := max s.deepest (s.nesting + 1),
      scopes := s.scopes.enter } :=
    { hs.plain.inScope (Scope.plain_empty [] false) with }
  refine ((ih _ hin hs.length_lt).collect (endsIn_blockEnd opener closer) []
    (List.forall_mem_nil _)).mono ?_
  rintro b t ⟨hb, ht⟩
  have hst : Reads s { t with scopes := t.scopes.exit, nesting := t.nesting - 1 } :=
    Leads.unnest ht.exit
  exact ⟨hb, hs.advanceThenRead hst⟩

theorem halts_call_of (ih : HaltsBehind r) (h : r.Plain) :
    Halts call r fun _ s => Advances r s := by
  refine .succ (fun n => by rw [call]) (.after (meets_consume h _ _) ?_)
  intro name s hs
  refine .nested fun _ => ?_
  have hin : Reader.Plain { s with
      nesting := s.nesting + 1, deepest := max s.deepest (s.nesting + 1) } :=
    { hs.plain with }
  refine ((ih _ hin hs.length_lt).arguments name {}).mono ?_
  intro c t ht
  exact hs.advanceThenRead ht.unnest

/-- A value is read where one is left, since there is nothing to define or to replace. -/
theorem halts_value_of (ih : HaltsBehind r) (h : r.Plain) {v : Value}
    (hfront : r.cursor.peek 0 = some v) :
    Halts value r fun found s => ∃ u, found = some u ∧ u.Plain ∧ Advances r s := by
  have hv := h.cursor.peek hfront
  refine .succ (fun n => by rw [value]) (.peek ?_)
  simp only [hfront]
  cases hv with
  | @token t ht =>
      by_cases hopener : t.type.isOpener = true
      · simp only [hopener, if_true]
        refine (halts_block_of ih h).bind fun b s hb => .pure ?_
        exact ⟨_, rfl, .block hb.1, hb.2⟩
      · by_cases hfunction : t.type = .function
        · simp only [hfunction, if_true]
          refine (halts_call_of ih h).bind fun c s hc => .pure ?_
          exact ⟨_, rfl, .call, hc⟩
        · simp only [hopener, hfunction, if_false]
          refine .peek ?_
          simp only [(h.cursor.checkDelim 0).1, Bool.false_and]
          refine .const ((meets_next h hfront).mono ?_)
          rintro u s ⟨rfl, hs⟩
          exact ⟨_, rfl, .token ht, hs⟩
  | block hcontents =>
      refine .const ((meets_pass h hfront).mono ?_)
      rintro u s ⟨rfl, hs⟩
      exact ⟨_, rfl, .block hcontents, hs⟩
  | call =>
      refine .const ((meets_pass h hfront).mono ?_)
      rintro u s ⟨rfl, hs⟩
      exact ⟨_, rfl, .call, hs⟩

theorem halts_collect_of (ih : HaltsBehind r) (h : r.Plain) {ending : List Value → Read (Option β)}
    {R : β → Reader → Reader → Prop} (hending : EndsIn ending R) (read : List Value)
    (hread : ∀ v ∈ read, v.Plain) :
    Halts (fun n => collect n ending read) r fun b s => R b r s := by
  refine .succ (fun n => by rw [collect]) (.after (hending.meets h hread) ?_)
  intro found s hfound
  cases found with
  | some b => exact .pure hfound
  | none =>
      obtain ⟨rfl, v, hfront⟩ := hfound
      refine (halts_value_of ih h hfront).bind ?_
      rintro _ t ⟨u, rfl, hu, ht⟩
      have hread' : ∀ w ∈ u :: read, w.Plain := by
        intro w hw
        rcases List.mem_cons.mp hw with rfl | hw
        · exact hu
        · exact hread w hw
      refine ((ih t ht.plain ht.length_lt).collect hending _ hread').mono ?_
      intro b q hq
      exact hending.trans ht.reads hq

theorem halts_arguments_of (ih : HaltsBehind r) (h : r.Plain) (name : Token) (state : CallState) :
    Halts (fun n => arguments n name state) r fun _ s => Reads r s := by
  refine .succ (fun n => by rw [arguments]) (.peek ?_)
  cases hfront : r.cursor.peek 0 with
  | none => exact .pure (.refl h)
  | some v =>
      by_cases hparen : v.hasType .closeParen = true
      · simp only [hparen, if_true]
        refine .after (meets_next h hfront) ?_
        rintro _ s ⟨_, hs⟩
        exact .pure hs.reads
      · by_cases hcomma : v.hasType .comma = true
        · simp only [hparen, hcomma, if_true]
          refine .after (meets_next h hfront) ?_
          rintro _ s ⟨_, hs⟩
          refine ((ih s hs.plain hs.length_lt).arguments name _).mono ?_
          intro c t ht
          exact hs.reads.readThenRead ht
        · simp only [hparen, hcomma]
          refine (halts_value_of ih h hfront).bind ?_
          rintro _ s ⟨u, rfl, _, hs⟩
          refine ((ih s hs.plain hs.length_lt).arguments name _).mono ?_
          intro c t ht
          exact hs.reads.readThenRead ht

/-- Every list of values comes to an end, by induction on what is left to read. -/
theorem haltsLists (h : r.Plain) :
    HaltsLists r := by
  induction hlength : r.cursor.rest.length using Nat.strong_induction_on generalizing r with
  | _ length ih =>
      have hbehind : HaltsBehind r := by
        intro s hs hlt
        exact ih _ (hlength ▸ hlt) hs rfl
      exact ⟨halts_collect_of hbehind h, halts_arguments_of hbehind h⟩

theorem haltsBehind (r : Reader) :
    HaltsBehind r :=
  fun _ hs _ => haltsLists hs

theorem halts_block (h : r.Plain) :
    Halts block r fun b s => (∀ v ∈ b.contents, v.Plain) ∧ Advances r s :=
  halts_block_of (haltsBehind r) h

theorem halts_call (h : r.Plain) :
    Halts call r fun _ s => Advances r s :=
  halts_call_of (haltsBehind r) h

theorem halts_value (h : r.Plain) {v : Value} (hfront : r.cursor.peek 0 = some v) :
    Halts value r fun found s => ∃ u, found = some u ∧ u.Plain ∧ Advances r s :=
  halts_value_of (haltsBehind r) h hfront

/-! ## Mixins -/

theorem plain_of_findMixin? {scopes : Scopes} (h : ∀ f ∈ scopes.frames, f.Plain) {name : String}
    {m : Mixin} (hm : scopes.findMixin? name = some m) :
    ∀ v ∈ m.body, v.Plain := by
  obtain ⟨f, hf, hfind⟩ := List.exists_of_findSome?_eq_some hm
  obtain ⟨before, behind, hmixins, _⟩ := List.lookup_eq_some_iff.mp hfind
  have hmem : (name, m) ∈ f.mixins := by simp [hmixins]
  exact (h f hf).mixins _ hmem

theorem findAlias?_eq_none {scopes : Scopes} (h : ∀ f ∈ scopes.frames, f.Plain) (name : String) :
    scopes.findAlias? name = none := by
  refine List.findSome?_eq_none_iff.mpr ?_
  intro f hf
  rw [(h f hf).aliases]
  rfl

/-- There is nothing to replace in a plain value. -/
theorem plain_instantiate {bound : Bindings (List Value)} {v : Value} (h : v.Plain) :
    ∀ u ∈ v.instantiate bound, u.Plain := by
  induction h with
  | token ht =>
      intro u hu
      rw [Value.instantiate] at hu
      rw [List.mem_singleton.mp hu]
      exact .token ht
  | block _ ih =>
      intro u hu
      rw [Value.instantiate] at hu
      rw [List.mem_singleton.mp hu]
      refine .block fun w hw => ?_
      obtain ⟨v, hv, hwv⟩ := mem_instantiateAll hw
      exact ih v hv w hwv
  | call =>
      intro u hu
      rw [Value.instantiate] at hu
      rw [List.mem_singleton.mp hu]
      exact .call

theorem plain_of_instantiate {m : Mixin} (h : ∀ v ∈ m.body, v.Plain) {name : String}
    {args : List (List Value)} {body : List Value} (hbody : m.instantiate name args = .ok body) :
    ∀ v ∈ body, v.Plain := by
  unfold Mixin.instantiate at hbody
  simp only at hbody
  split at hbody
  · cases hbody
  · cases hbound : bindArguments name m.parameterList args [] with
    | error cause =>
        rw [hbound] at hbody
        cases hbody
    | ok bound =>
        rw [hbound] at hbody
        cases hbody
        intro u hu
        obtain ⟨v, hv, huv⟩ := mem_instantiateAll hu
        exact plain_instantiate (h v hv) u huv

theorem meets_instantiate (h : r.Plain) (name : Token) (args : List (List Value)) :
    Meets (fun body s => (∀ v ∈ body, v.Plain) ∧ s = r) (instantiate name args r) := by
  unfold instantiate
  rw [bind_ok (show look (·.scopes) r = .ok r.scopes r from rfl)]
  cases hfind : r.scopes.findMixin? name.text with
  | none => rintro ⟨⟩
  | some m =>
      simp only
      cases hbody : m.instantiate name.text args with
      | error cause => rintro ⟨⟩
      | ok body => exact ⟨plain_of_instantiate (plain_of_findMixin? h.frames hfind) hbody, rfl⟩

/-- All instances are plain. -/
def PlainTargets (found : List (String × List Value)) : Prop :=
  ∀ e ∈ found, ∀ v ∈ e.2, v.Plain

theorem PlainTargets.cons {found : List (String × List Value)} {name : String} {body : List Value}
    (h : PlainTargets found) (hbody : ∀ v ∈ body, v.Plain) :
    PlainTargets ((name, body) :: found) := by
  intro e he
  rcases List.mem_cons.mp he with rfl | he
  · exact hbody
  · exact h e he

/-- The targets of an inclusion are read one by one. -/
theorem halts_targets (h : r.Plain) {read : List (String × List Value)} (hread : PlainTargets read) :
    Halts (fun n => targets n read) r fun found s => PlainTargets found ∧ Reads r s := by
  induction hlength : r.cursor.rest.length using Nat.strong_induction_on generalizing r read with
  | _ length ih =>
      have hnext {s : Reader} (hs : Advances r s) {found : List (String × List Value)}
          (hfound : PlainTargets found) :
          Halts (fun n => targets n found) s fun found t => PlainTargets found ∧ Reads r t := by
        refine (ih _ (hlength ▸ hs.length_lt) hs.plain hfound rfl).mono ?_
        rintro _ t ⟨hfound, ht⟩
        exact ⟨hfound, hs.reads.readThenRead ht⟩
      have hinstance {s : Reader} (hs : Advances r s) (name : Token) (args : List (List Value)) :
          Halts (fun n => do
            let body ← instantiate name args
            targets n ((name.text, body) :: read)) s
            fun found t => PlainTargets found ∧ Reads r t := by
        refine .after (meets_instantiate hs.plain name args) ?_
        rintro body _ ⟨hbody, rfl⟩
        exact hnext hs (hread.cons hbody)
      refine .succ (fun n => by rw [targets]) (.after (meets_skipWhitespace h) fun _ s hs => .peek ?_)
      cases hfront : s.cursor.peek 0 with
      | none => exact .pure ⟨hread, hs⟩
      | some v =>
          have hmeets := (meets_next hs.plain hfront).mono fun _ t ht => hs.readThenAdvance ht.2
          cases v with
          | token t =>
              by_cases hsemicolon : t.type = .semicolon
              · simp only [hsemicolon, if_true]
                exact .after hmeets fun _ t ht => .pure ⟨hread, ht.reads⟩
              · by_cases hcomma : t.type = .comma
                · simp only [hcomma, if_true]
                  exact .after hmeets fun _ t ht => hnext ht hread
                · by_cases hident : t.type = .ident
                  · simp only [hident, if_true]
                    exact .after hmeets fun _ s hs => hinstance hs t []
                  · by_cases hfunction : t.type = .function
                    · simp only [hfunction, if_true]
                      refine (halts_call hs.plain).bind fun c t ht => ?_
                      exact hinstance (hs.readThenAdvance ht) c.name c.arguments
                    · simp only [hsemicolon, hcomma, hident, hfunction, if_false]
                      exact .failAt
          | call name args commas closer => exact .after hmeets fun _ s hs => hinstance hs name args
          | block opener contents closer => exact .failAt
          | reference dollar name => exact .failAt

/-- The instances are put in front one after the other, each with its marker. -/
theorem meets_expand (h : r.Plain) {found : List (String × List Value)} (hfound : PlainTargets found)
    (hroom : markers r.cursor.items + found.length ≤ r.limits.includeDepth) :
    Meets (fun _ s => Leads Pushed r s) (expand found r) := by
  induction found generalizing r with
  | nil => exact ⟨h, rfl, rfl, .refl⟩
  | cons e found ih =>
      obtain ⟨name, body⟩ := e
      rw [List.length_cons] at hroom
      have hmarkers : markers (r.cursor.spliceExpansion name body).items =
          markers r.cursor.items + 1 := by
        simp [Cursor.spliceExpansion, markers, markers_map_value]
      have hplain : Reader.Plain { r with
          cursor := r.cursor.spliceExpansion name body
          events := .mixinIncluded name (r.cursor.spliceExpansion name body).depth :: r.events } := by
        refine ⟨⟨?_, ?_⟩, h.frames, ?_⟩
        · intro v hv
          rw [Cursor.rest_spliceExpansion] at hv
          rcases List.mem_append.mp hv with hbody | hrest
          · exact hfound _ List.mem_cons_self v hbody
          · exact h.cursor.rest v hrest
        · rw [hmarkers, ← h.cursor.expansions]
          rfl
        · rw [hmarkers]
          exact Nat.le_trans (by omega) hroom
      have htail : PlainTargets found := fun e he => hfound e (List.mem_cons_of_mem _ he)
      have hstep : expand ((name, body) :: found) r = expand found { r with
          cursor := r.cursor.spliceExpansion name body
          events := .mixinIncluded name (r.cursor.spliceExpansion name body).depth :: r.events } := by
        rfl
      rw [hstep]
      refine (ih hplain htail (by simp only [hmarkers]; omega)).mono ?_
      intro _ s hs
      exact ⟨hs.plain, hs.limits, hs.nesting, hs.items.of_push⟩

/-- An inclusion reads its targets and puts their instances in front of what is left. -/
theorem halts_includeMixins (h : r.Plain) (keyword : Token) :
    Halts (fun n => includeMixins n keyword) r
      fun _ s => ∃ t, Reads r t ∧ Leads Pushed t s := by
  have hnone : PlainTargets [] := fun _ he => (List.not_mem_nil he).elim
  refine (halts_targets h hnone).bind ?_
  rintro reversed s ⟨hreversed, hs⟩
  cases hlast : reversed.getLast? with
  | none => exact .fail
  | some e =>
      refine .look (.peek ?_)
      by_cases hlimit : s.limits.includeDepth < s.cursor.depth + reversed.length
      · simp only [hlimit, if_true]
        exact .fail
      · simp only [hlimit, if_false]
        refine .const ((meets_expand hs.plain hreversed ?_).mono fun _ t ht => ⟨s, hs, ht⟩)
        rw [← hs.plain.cursor.expansions]
        unfold Cursor.depth at hlimit
        omega

/-- A parameter would need a dollar sign. -/
theorem meets_consumeDelim (h : r.Plain) (what : String) :
    Meets (fun _ _ => False) (scan (Scan.consumeDelim "$" what) r) := by
  unfold scan Scan.consumeDelim
  cases hfront : r.cursor.peekToken 0 with
  | none => rintro ⟨⟩
  | some t =>
      have hv := (h.cursor.peek (Cursor.peek_of_peekToken hfront)).isDelim.1
      have ht : t.isDelim "$" = false := hv
      simp only [ht]
      rintro ⟨⟩

theorem halts_parameters (h : r.Plain) (mixin : Token) :
    Halts (fun n => parameters mixin n false []) r fun _ s => Reads r s := by
  refine .succ (fun n => by rw [parameters]) (.after (meets_skipWhitespace h) fun _ s hs => .peek ?_)
  by_cases hend : s.cursor.atEnd = true
  · simp only [hend, if_true]
    exact .failAt
  · simp only [hend]
    refine .peek ?_
    cases hfront : s.cursor.peek 0 with
    | none => simp [Cursor.atEnd, hfront] at hend
    | some v =>
        by_cases hparen : s.cursor.check 0 .closeParen = true
        · simp only [hparen, if_true]
          refine .after (meets_next hs.plain hfront) ?_
          rintro _ t ⟨_, ht⟩
          exact .pure (hs.readThenAdvance ht).reads
        · simp only [hparen]
          exact .after (meets_consumeDelim hs.plain _) fun _ _ hfalse => hfalse.elim

theorem halts_mixinHead (h : r.Plain) :
    Halts mixinHead r fun _ s => Advances r s := by
  refine .peek ?_
  cases hfront : r.cursor.peekToken 0 with
  | none => exact .failAt
  | some t =>
      have hmeets := (meets_next h (Cursor.peek_of_peekToken hfront)).mono fun _ s hs => hs.2
      by_cases hident : t.type = .ident
      · simp only [hident, if_true]
        exact .after hmeets fun _ s hs => .pure hs
      · by_cases hfunction : t.type = .function
        · simp only [hfunction, if_true]
          refine .after hmeets fun _ s hs => (halts_parameters hs.plain t).bind fun ps u hu => .pure ?_
          exact hs.advanceThenRead hu
        · simp only [hident, hfunction, if_false]
          exact .failAt

theorem advances_setMixin {s : Reader} (h : Advances r s) (name : String) (e : Event) {m : Mixin}
    (hbody : ∀ v ∈ m.body, v.Plain) :
    Advances r { s with scopes := s.scopes.setMixin name m, events := e :: s.events } := by
  refine ⟨{ h.plain with frames := ?_ }, h.limits, h.nesting, h.items⟩
  intro f hf
  rcases List.mem_cons.mp hf with rfl | hf
  · have hcurrent := h.plain.frames s.scopes.current List.mem_cons_self
    refine ⟨hcurrent.aliases, ?_⟩
    intro e he
    rcases List.mem_cons.mp he with rfl | he
    · exact hbody
    · exact hcurrent.mixins e (List.mem_filter.mp he).1
  · exact h.plain.frames f (List.mem_cons_of_mem _ hf)

/-- A definition of a mixin reads its body and binds it. -/
theorem halts_defineMixin (h : r.Plain) :
    Halts defineMixin r fun _ s => Advances r s := by
  refine .after (meets_skipWhitespace h) fun _ s hs => ?_
  refine (halts_mixinHead hs.plain).bind fun head t ht => ?_
  obtain ⟨name, ps⟩ := head
  refine .after (meets_skipWhitespace ht.plain) fun _ u hu => .peek ?_
  have hru : Advances r u := (hs.readThenAdvance ht).advanceThenRead hu
  have hset {w : Reader} (hw : Advances r w) {body : List Value} (hbody : ∀ v ∈ body, v.Plain)
      (e : Event) :
      Halts (fun _ => do
        updateScopes (·.setMixin name.text ⟨ps, body⟩)
        record e) w fun _ s => Advances r s :=
    .const (advances_setMixin hw name.text e hbody)
  simp only
  cases hfront : u.cursor.peek 0 with
  | none => exact .failAtBind
  | some v =>
      cases v with
      | token t =>
          by_cases hbrace : t.type = .openBrace
          · simp only [hbrace, if_true]
            have hin := hu.plain.inScope (Scope.plain_empty ((ps.getD []).map (·.name)) true)
            refine Halts.bind (P := fun b w => (∀ v ∈ b.contents, v.Plain) ∧ Advances r w)
              (.capturing _ ((halts_block hin).mono ?_)) fun b w hw => .pureBind (hset hw.2 hw.1 _)
            rintro b w ⟨hb, hw⟩
            exact ⟨hb, hru.reads.readThenAdvance hw.exit⟩
          · simp only [hbrace, if_false]
            exact .failAtBind
      | block opener contents closer =>
          by_cases hbrace : opener.type = .openBrace
          · simp only [hbrace, if_true]
            have hcontents : ∀ v ∈ contents, v.Plain := by
              cases hu.plain.cursor.peek hfront with
              | block hcontents => exact hcontents
            refine .after (meets_next hu.plain hfront) ?_
            rintro _ w ⟨_, hw⟩
            exact .pureBind (hset (hru.advanceThenRead hw.reads) hcontents _)
          · simp only [hbrace, if_false]
            exact .failAtBind
      | call name args commas closer =>
          exact .failAtBind
      | reference dollar name =>
          exact .failAtBind

end Read

/-! ## Rules -/

/-- Nothing is left behind the last value, not even a marker. -/
theorem Cursor.Plain.next_none {c : Cursor} (h : c.Plain) (hend : c.peek 0 = none) :
    c.next.1 = none ∧ c.next.2.Plain ∧ c.next.2.items = [] := by
  have hfirst : c.next.1 = none := by
    rw [next_fst, List.head?_eq_getElem?, ← peek_eq_getElem?, hend]
  obtain ⟨_, hnames⟩ := dropMarkers_spec c.items c.expansions h.expansions
  have hmark := @dropMarkers_ne_marker c.items c.expansions
  rcases hdrop : dropMarkers c.items c.expansions with ⟨_ | ⟨u | m, rest⟩, names⟩
  · have hnext : c.next.2 = { c with items := [], expansions := names } := by
      simp [Cursor.next, hdrop]
    rw [hdrop] at hnames
    rw [hnext]
    exact ⟨hfirst, ⟨nofun, hnames⟩, rfl⟩
  · simp [Cursor.next, hdrop] at hfirst
  · rw [hdrop] at hmark
    exact (hmark rfl).elim

/-- The flat contents of a block are read to the closer, or to the end of the input. -/
theorem Scan.rawContents_spec (opener : Token) (closer : TokenType) :
    ∀ (n : Nat) (due : List TokenType) (read : List Value) {c : Cursor}, c.Plain →
      (∀ v ∈ read, v.Plain) →
      ∃ b d, Scan.rawContents opener closer n due read c = .ok b d ∧ d.Plain ∧
        (∀ v ∈ b.contents, v.Plain) ∧ (d.items = c.items ∨ Past c.items d.items ∨ d.items = [])
  | 0, due, read, c, h, hread => by
      refine ⟨_, c, rfl, h, ?_, .inl rfl⟩
      exact fun v hv => hread v (List.mem_reverse.mp hv)
  | n + 1, due, read, c, h, hread => by
      have hcontents : ∀ v ∈ read.reverse, v.Plain := fun v hv => hread v (List.mem_reverse.mp hv)
      have hrun {f : Option Value → Scan Block} :
          (Scan.next >>= f) c = f c.next.1 c.next.2 := by
        rfl
      rw [Scan.rawContents, hrun]
      cases hfront : c.peek 0 with
      | none =>
          obtain ⟨hfirst, hplain, hitems⟩ := h.next_none hfront
          rw [hfirst]
          exact ⟨_, _, rfl, hplain, hcontents, .inr (.inr hitems)⟩
      | some v =>
          obtain ⟨hplain, hpast⟩ := h.next hfront
          have hfirst : c.next.1 = some v := by
            rw [Cursor.next_fst, List.head?_eq_getElem?, ← Cursor.peek_eq_getElem?, hfront]
          have hread' : ∀ u ∈ v :: read, u.Plain := by
            intro u hu
            rcases List.mem_cons.mp hu with rfl | hu
            · exact h.peek hfront
            · exact hread u hu
          have hstep (due' : List TokenType) :
              ∃ b d, Scan.rawContents opener closer n due' (v :: read) c.next.2 = .ok b d ∧ d.Plain ∧
                (∀ v ∈ b.contents, v.Plain) ∧
                (d.items = c.items ∨ Past c.items d.items ∨ d.items = []) := by
            obtain ⟨b, d, hb, hd, hbc, hitems⟩ :=
              Scan.rawContents_spec opener closer n due' _ hplain hread'
            refine ⟨b, d, hb, hd, hbc, ?_⟩
            rcases hitems with heq | hbehind | hnil
            · exact .inr (.inl (heq ▸ hpast))
            · exact .inr (.inl (hpast.trans hbehind))
            · exact .inr (.inr hnil)
          rw [hfirst]
          cases v with
          | token t =>
              by_cases hclose : due = [] ∧ t.type = closer
              · simp only [hclose, and_self, if_true]
                exact ⟨_, _, rfl, hplain, hcontents, .inr (.inl hpast)⟩
              · simp only [hclose, if_false]
                exact hstep _
          | block opener contents closer => exact hstep due
          | call name args commas closer => exact hstep due
          | reference dollar name => exact hstep due

namespace Read

variable {α β : Type} {r : Reader}

theorem meets_rawBlock (h : r.Plain) :
    Meets (fun b s => (∀ v ∈ b.contents, v.Plain) ∧ Leaves r s) (scan Scan.rawBlock r) := by
  have hopener := meets_opener h
  unfold Scan.rawBlock
  rw [scan_bind]
  cases hrun : scan Scan.opener r with
  | error e s =>
      rw [hrun] at hopener
      rw [bind_error hrun]
      exact hopener
  | ok bracket s =>
      rw [hrun] at hopener
      rw [bind_ok hrun]
      have hs : Advances r s := hopener
      obtain ⟨b, d, hb, hd, hcontents, hitems⟩ := Scan.rawContents_spec bracket.1 bracket.2
        (s.cursor.items.length + 1) [] [] hs.plain.cursor nofun
      have hscan : scan (Scan.look (·.items.length + 1) >>= fun n =>
          Scan.rawContents bracket.1 bracket.2 n [] []) s = .ok b { s with cursor := d } := by
        rw [scan_bind]
        change scan (Scan.rawContents _ _ _ [] []) s = _
        simp only [scan, hb]
      rw [hscan]
      refine ⟨hcontents, ⟨⟨hd, hs.plain.frames, ?_⟩, hs.limits, hs.nesting, ?_⟩⟩
      · rcases hitems with heq | hpast | hnil
        · simpa only [heq] using hs.plain.room
        · exact Nat.le_trans hpast.markers_le hs.plain.room
        · simp [hnil, markers]
      · rcases hitems with heq | hpast | hnil
        · exact ⟨_, hs.items, .inl heq⟩
        · exact ⟨_, hs.items.trans hpast, .inl rfl⟩
        · exact ⟨_, hs.items, .inr hnil⟩

/-- The block of a rule is plain. -/
def PlainBlock (b : Block) : Prop :=
  ∀ v ∈ b.contents, v.Plain

theorem plainBlock_of_peek (h : r.Plain) {opener : Token} {contents : List Value}
    {closer : Option Token} (hfront : r.cursor.peek 0 = some (.block opener contents closer)) :
    PlainBlock ⟨opener, contents, closer⟩ := by
  cases h.cursor.peek hfront with
  | block hcontents => exact hcontents

/-- The block of an at-rule, if it has one, is plain. -/
def PlainRule (rule : AtRule) : Prop :=
  ∀ b ∈ rule.block, PlainBlock b

theorem meets_atRuleEnd (name : Token) (h : r.Plain) (read : List Value) :
    Meets (Ended (fun rule r s => PlainRule rule ∧ Passes r s) r) (atRuleEnd name read r) := by
  have hnone : PlainRule ⟨name, trimWhitespace read.reverse, none⟩ := by
    intro b hb
    cases hb
  have hsome {b : Block} (hb : PlainBlock b) :
      PlainRule ⟨name, trimWhitespace read.reverse, some b⟩ := by
    intro b' hb'
    cases hb'
    exact hb
  unfold atRuleEnd
  rw [bind_ok (peek_run _ r)]
  cases hfront : r.cursor.peek 0 with
  | none => exact ⟨hnone, (Leads.refl h).passes⟩
  | some v =>
      have hnext := meets_next h hfront
      cases v with
      | token t =>
          by_cases hsemicolon : t.type = .semicolon
          · simp only [hsemicolon, if_true]
            exact hnext.bind fun _ s hs => ⟨hnone, hs.2.reads.passes⟩
          · by_cases hbrace : t.type = .openBrace
            · simp only
              rw [if_neg hsemicolon, if_pos hbrace]
              exact (meets_rawBlock h).bind fun b s hb => ⟨hsome hb.1, hb.2.passes_of_leaves⟩
            · simp only [hsemicolon, hbrace, if_false]
              exact ⟨rfl, _, hfront⟩
      | block opener contents closer =>
          by_cases hbrace : opener.type = .openBrace
          · simp only [hbrace, if_true]
            refine hnext.bind fun _ s hs => ⟨hsome ?_, hs.2.reads.passes⟩
            exact plainBlock_of_peek h hfront
          · simp only [hbrace, if_false]
            exact ⟨rfl, _, hfront⟩
      | call name args commas closer => exact ⟨rfl, _, hfront⟩
      | reference dollar name => exact ⟨rfl, _, hfront⟩

theorem meets_qualifiedEnd (h : r.Plain) (read : List Value) :
    Meets (Ended (fun rule r s => PlainBlock rule.block ∧ Leaves r s) r) (qualifiedEnd read r) := by
  unfold qualifiedEnd
  rw [bind_ok (peek_run _ r)]
  cases hfront : r.cursor.peek 0 with
  | none => rintro ⟨⟩
  | some v =>
      cases v with
      | token t =>
          by_cases hbrace : t.type = .openBrace
          · simp only [hbrace, if_true]
            exact (meets_rawBlock h).bind fun b s hb => hb
          · simp only [hbrace, if_false]
            exact ⟨rfl, _, hfront⟩
      | block opener contents closer =>
          by_cases hbrace : opener.type = .openBrace
          · simp only [hbrace, if_true]
            refine (meets_next h hfront).bind fun _ s hs => ⟨?_, hs.2.leaves⟩
            exact plainBlock_of_peek h hfront
          · simp only [hbrace, if_false]
            exact ⟨rfl, _, hfront⟩
      | call name args commas closer => exact ⟨rfl, _, hfront⟩
      | reference dollar name => exact ⟨rfl, _, hfront⟩

theorem halts_qualifiedRule (h : r.Plain) :
    Halts qualifiedRule r fun rule s => PlainBlock rule.block ∧ Leaves r s := by
  refine (haltsLists h).collect ⟨fun h _ => meets_qualifiedEnd h _, ?_⟩ [] nofun
  exact fun hrs hst => ⟨hst.1, hrs.readThenLeave hst.2⟩

/-- What an at-rule gives: a rule with a plain block, or nothing but bodies put in front. -/
def AtRuleRead (r : Reader) : Option AtRule → Reader → Prop
  | some rule, s => PlainRule rule ∧ Leaves r s
  | none, s => Includes r s

theorem halts_aliasOrRule (h : r.Plain) (name : Token) :
    Halts (fun n => aliasOrRule n name) r fun found s =>
      ∃ rule, found = some rule ∧ PlainRule rule ∧ Passes r s := by
  have hrule : Halts (fun n => do return some (← collect n (atRuleEnd name) [])) r fun found s =>
      ∃ rule, found = some rule ∧ PlainRule rule ∧ Passes r s := by
    refine Halts.bind ((haltsLists h).collect ⟨fun h _ => meets_atRuleEnd name h _, ?_⟩ [] nofun) ?_
    · exact fun hrs hst => ⟨hst.1, hrs.readThenPass hst.2⟩
    · intro rule s hs
      exact .pure ⟨rule, rfl, hs⟩
  unfold aliasOrRule
  by_cases hmedia : Text.foldCase name.text = "media"
  · simp only [ne_eq, hmedia, not_true_eq_false, if_false]
    exact hrule
  · simp only [ne_eq, hmedia, not_false_eq_true, if_true]
    refine .peek (.peek ?_)
    simp only [(h.cursor.checkDelim _).2]
    refine .look ?_
    simp only [findAlias?_eq_none h.frames]
    exact hrule

theorem halts_atRule (h : r.Plain) :
    Halts atRule r (AtRuleRead r) := by
  refine .after (meets_consume h _ _) fun name s hs => ?_
  by_cases hmixin : Text.foldCase name.text = "mixin"
  · simp only [hmixin, if_true]
    refine (halts_defineMixin hs.plain).bind fun _ t ht => .pure ?_
    exact (hs.reads.readThenAdvance ht).includes
  · by_cases hinclude : Text.foldCase name.text = "include"
    · simp only [hinclude, if_true]
      refine (halts_includeMixins hs.plain name).bind ?_
      rintro _ t ⟨u, hsu, hut⟩
      refine .pure ((hs.advanceThenRead hsu).trans hut ?_)
      exact fun hpast hpushed => ⟨_, hpast, hpushed⟩
    · simp only [hmixin, hinclude, if_false]
      refine (halts_aliasOrRule hs.plain name).mono ?_
      rintro _ t ⟨rule, rfl, hblock, ht⟩
      exact ⟨hblock, hs.advanceThenPass ht⟩

/-- The block that a rule governs is plain. -/
def PlainNext : Rule → Prop
  | .atRule rule => PlainRule rule
  | .qualified rule => PlainBlock rule.block

/-- What the search for the next rule gives: a rule with a plain block, or the end of the input. -/
def NextRead (limit : Nat) (r : Reader) : Option Rule → Reader → Prop
  | some rule, s => PlainNext rule ∧ Falls limit r s
  | none, s => Keeps r s

theorem NextRead.behind {limit : Nat} {s t : Reader} {found : Option Rule} (h : Falls limit r s)
    (k : NextRead limit s found t) :
    NextRead limit r found t := by
  cases found with
  | none => exact h.thenKeep k
  | some rule => exact ⟨k.1, h.trans k.2 fun hab hbc => hbc.trans hab⟩

/-- Definitions and inclusions on the way to the next rule lower the rank. -/
theorem halts_nextRule {limit : Nat} (h : r.Plain) (hlimit : r.limits.includeDepth = limit) :
    Halts nextRule r (NextRead limit r) := by
  induction hrank : rank limit r.cursor.items using WellFoundedLT.induction generalizing r with
  | ind _ ih =>
      have hagain {s : Reader} (hs : Falls limit r s) : Halts nextRule s (NextRead limit r) := by
        refine (ih _ (hrank ▸ hs.items) hs.plain (hs.limits ▸ hlimit) rfl).mono ?_
        exact fun found t ht => ht.behind hs
      refine .succ (fun n => by rw [nextRule]) (.after (meets_skipWhitespace h) fun _ s hs => .peek ?_)
      have hqualified : Halts (fun n => do return some (.qualified (← qualifiedRule n))) s
          (NextRead limit r) := by
        refine (halts_qualifiedRule hs.plain).bind fun rule t ht => .pure ⟨ht.1, ?_⟩
        exact (hs.readThenLeave ht.2).falls_of_leaves h hlimit
      cases hfront : s.cursor.peek 0 with
      | none => exact .pure hs.keeps
      | some v =>
          cases v with
          | token t =>
              by_cases hcomment : t.type = .cdo ∨ t.type = .cdc
              · simp only [hcomment, if_true]
                refine .after (meets_next hs.plain hfront) ?_
                rintro _ u ⟨_, hu⟩
                exact hagain ((hs.readThenAdvance hu).leaves.falls_of_leaves h hlimit)
              · simp only [hcomment, if_false]
                by_cases hkeyword : t.type = .atKeyword
                · simp only [hkeyword, if_true]
                  refine (halts_atRule hs.plain).bind fun found u hu => ?_
                  cases found with
                  | none => exact hagain ((hs.readThenInclude hu).falls_of_includes h hlimit)
                  | some rule =>
                      exact .pure ⟨hu.1, (hs.readThenLeave hu.2).falls_of_leaves h hlimit⟩
                · simp only [hkeyword, if_false]
                  refine .peek ?_
                  simp only [(hs.plain.cursor.checkDelim 0).1, Bool.false_and]
                  exact hqualified
          | block opener contents closer => exact hqualified
          | call name args commas closer => exact hqualified
          | reference dollar name => exact hqualified

/-! ## Bodies -/

theorem meets_declarationEnd (h : r.Plain) (read : List Value) :
    Meets (Ended (fun _ r s => Reads r s) r) (declarationEnd read r) := by
  unfold declarationEnd
  rw [bind_ok (peek_run _ r)]
  cases hfront : r.cursor.peek 0 with
  | none => exact Leads.refl h
  | some v =>
      simp only
      rw [bind_ok (peek_run _ r)]
      by_cases hend : r.cursor.atExpansionEnd = true
      · simp only [hend, if_true]
        exact Leads.refl h
      · by_cases hsemicolon : v.hasType .semicolon = true
        · simp only [hend, hsemicolon, if_true]
          exact (meets_next h hfront).bind fun _ s hs => hs.2.reads
        · simp only [hend, hsemicolon]
          exact ⟨rfl, v, hfront⟩

theorem endsIn_declarationEnd :
    EndsIn declarationEnd fun _ r s => Reads r s :=
  ⟨fun h _ => meets_declarationEnd h _, fun hrs hst => hrs.readThenRead hst⟩

theorem halts_declaration (h : r.Plain) :
    Halts declaration r fun _ s => Advances r s := by
  refine .after (meets_consume h _ _) fun name s hs => ?_
  refine .after (meets_skipWhitespace hs.plain) fun _ t ht => ?_
  refine .after (meets_consume ht.plain _ _) fun colon u hu => ?_
  refine ((haltsLists hu.plain).collect endsIn_declarationEnd [] nofun).bind fun values w hw => ?_
  cases splitImportant (trimWhitespace values) with
  | error d => exact .fail
  | ok value =>
      have hru := (hs.advanceThenRead ht).reads.readThenAdvance hu
      exact .pure (hru.advanceThenRead hw)

/-- A skipped statement ends where its values end, and skips at least one if there is one. -/
theorem halts_skipStatement (h : r.Plain) (skipped : Bool) :
    Halts (fun n => skipStatement n skipped) r fun _ s =>
      Reads r s ∧ ∀ v, r.cursor.peek 0 = some v → skipped = false → Advances r s := by
  induction hlength : r.cursor.rest.length using Nat.strong_induction_on generalizing r skipped with
  | _ length ih =>
      refine .succ (fun n => by rw [skipStatement]) (.peek ?_)
      cases hfront : r.cursor.peek 0 with
      | none => exact .pure ⟨.refl h, fun _ hv => by cases hv⟩
      | some v =>
          refine .peek ?_
          by_cases hend : (skipped && r.cursor.atExpansionEnd) = true
          · simp only [hend, if_true]
            refine .pure ⟨.refl h, ?_⟩
            rintro _ _ rfl
            simp at hend
          · by_cases hsemicolon : v.hasType .semicolon = true
            · simp only [hend, hsemicolon, if_true]
              refine .after (meets_next h hfront) ?_
              rintro _ s ⟨_, hs⟩
              exact .pure ⟨hs.reads, fun _ _ _ => hs⟩
            · simp only [hend, hsemicolon]
              refine (halts_value h hfront).bind ?_
              rintro _ s ⟨u, rfl, _, hs⟩
              have hrecorded : Advances r { s with events := .valueSkipped u.start :: s.events } :=
                ⟨{ hs.plain with }, hs.limits, hs.nesting, hs.items⟩
              refine .of_run (fun n => rfl)
                ((ih _ (hlength ▸ hrecorded.length_lt) hrecorded.plain true rfl).mono ?_)
              rintro _ t ⟨ht, _⟩
              have hrt := hrecorded.advanceThenRead ht
              exact ⟨hrt.reads, fun _ _ _ => hrt⟩

/-- Bodies come to an end from a reader. -/
structure HaltsBodies (r : Reader) : Prop where
  styleEntries : ∀ read : List Entry, Halts (fun n => styleEntries n read) r fun _ s => Keeps r s
  ruleList : ∀ read : List Entry, Halts (fun n => ruleList n read) r fun _ s => Keeps r s
  keyframes : ∀ read : List Entry, Halts (fun n => keyframes n read) r fun _ s => Keeps r s

/-- Bodies come to an end one block deeper. -/
def HaltsInside (r : Reader) : Prop :=
  r.nesting < r.limits.nestingDepth →
    ∀ s, s.Plain → s.limits = r.limits → s.nesting = r.nesting + 1 → HaltsBodies s

/-- The reader is plain and back where it was. -/
abbrev Returns : Reader → Reader → Prop :=
  Leads fun s t => t = s

theorem plain_ofValues (h : r.Plain) {vs : List Value} (hvs : ∀ v ∈ vs, v.Plain) :
    Reader.Plain { r with cursor := .ofValues vs r.cursor.depth } := by
  have hrest : (Cursor.ofValues vs r.cursor.depth).rest = vs := by
    simp [Cursor.rest, Cursor.ofValues, List.filterMap_map, Function.comp_def, Item.value?]
  have hmarkers : markers (Cursor.ofValues vs r.cursor.depth).items = 0 := by
    simp [Cursor.ofValues, markers_map_value]
  refine ⟨⟨?_, ?_⟩, h.frames, ?_⟩
  · rw [hrest]
    exact hvs
  · rw [hmarkers]
    rfl
  · rw [hmarkers]
    exact Nat.zero_le _

/-- A body is read in a scope of its own, one block deeper, on a cursor of its own. -/
theorem halts_inside {f : Nat → Read (List Entry)} (h : r.Plain) (hinside : HaltsInside r)
    {vs : List Value} (hvs : ∀ v ∈ vs, v.Plain)
    (hf : ∀ s, HaltsBodies s → Halts f s fun _ t => Keeps s t) :
    Halts (fun n => within vs (nested (inScope (f n)))) r fun _ s => Returns r s := by
  refine .within vs (.nested fun hroom => .inScope ?_)
  have hin : Reader.Plain { r with
      cursor := .ofValues vs r.cursor.depth, nesting := r.nesting + 1,
      deepest := max r.deepest (r.nesting + 1), scopes := r.scopes.enter } :=
    { (plain_ofValues h hvs).inScope (Scope.plain_empty [] false) with }
  refine (hf _ (hinside hroom _ hin rfl rfl)).mono ?_
  intro body s hs
  have hlimits : s.limits = r.limits := hs.limits
  have hnesting : s.nesting = r.nesting + 1 := hs.nesting
  refine ⟨⟨h.cursor, ?_, hlimits ▸ h.room⟩, hlimits, ?_, rfl⟩
  · intro f hf
    exact hs.plain.frames f (Scopes.mem_frames_exit hf)
  · simp only [hnesting]
    omega

theorem halts_styleBlock (h : r.Plain) (hinside : HaltsInside r) {b : Block} (hb : PlainBlock b) :
    Halts (fun n => styleBlock n b) r fun _ s => Returns r s :=
  .succ (fun n => by rw [styleBlock]) (halts_inside h hinside hb fun _ hs => hs.styleEntries [])

theorem halts_styleRule (h : r.Plain) (hinside : HaltsInside r) {rule : QualifiedRule}
    (hrule : PlainBlock rule.block) :
    Halts (fun n => styleRule n rule) r fun _ s => Returns r s := by
  refine .succ (fun n => by rw [styleRule]) ?_
  cases Selector.parse rule.prelude with
  | error d => exact .fail
  | ok selectors => exact (halts_styleBlock h hinside hrule).bind fun _ s hs => .pure hs

theorem halts_resolveAtRule (h : r.Plain) (hinside : HaltsInside r) {rule : AtRule}
    (hrule : PlainRule rule) (inStyle : Bool) :
    Halts (fun n => resolveAtRule n rule inStyle) r fun _ s => Returns r s := by
  refine .succ (fun n => by rw [resolveAtRule]) ?_
  cases hblock : rule.block with
  | none => exact .pure ⟨h, rfl, rfl, rfl⟩
  | some b =>
      have hb : PlainBlock b := hrule b hblock
      have hresolved {f : Nat → Read (List Entry)} (hf : Halts f r fun _ s => Returns r s) :
          Halts (fun n => do return rule.resolved (← f n)) r fun _ s => Returns r s :=
        hf.bind fun _ s hs => .pure hs
      have hstyle := hresolved (halts_styleBlock h hinside hb)
      have hkeyframes := hresolved (halts_inside h hinside hb fun _ hs => hs.keyframes [])
      have hrules := hresolved (halts_inside h hinside hb fun _ hs => hs.ruleList [])
      simp only
      cases BodyKind.ofName rule.name.text with
      | keyframes => exact hkeyframes
      | declarations => exact hstyle
      | rules =>
          cases inStyle with
          | true => exact hstyle
          | false => exact hrules

theorem HaltsInside.behind {rel : List Item → List Item → Prop} {s : Reader} (h : HaltsInside r)
    (hs : Leads rel r s) :
    HaltsInside s := by
  intro hroom t ht hlimits hnesting
  rw [hs.limits, hs.nesting] at hroom
  exact h hroom t ht (hlimits.trans hs.limits) (hs.nesting ▸ hnesting)

theorem Falls.returns {limit : Nat} {s t : Reader} (h : Falls limit r s) (k : Returns s t) :
    Falls limit r t :=
  h.trans k fun hab hbc => hbc ▸ hab

/-- Every statement of a style block lowers the rank. -/
theorem halts_styleStatement {limit : Nat} (h : r.Plain) (hlimit : r.limits.includeDepth = limit)
    (hinside : HaltsInside r) {v : Value} (hfront : r.cursor.peek 0 = some v) :
    Halts (fun n => styleStatement n v) r fun _ s => Falls limit r s := by
  have hskip : Halts (fun n => do skipStatement n false; return (none : Option Entry)) r
      fun _ s => Falls limit r s := by
    refine (halts_skipStatement h false).bind fun _ s hs => .pure ?_
    exact (hs.2 v hfront rfl).leaves.falls_of_leaves h hlimit
  cases v with
  | token t =>
      refine .succ (fun n => by rw [styleStatement]) ?_
      by_cases hblank : t.type = .whitespace ∨ t.type = .semicolon
      · simp only [hblank, if_true]
        refine .after (meets_next h hfront) fun _ s hs => .pure ?_
        exact hs.2.leaves.falls_of_leaves h hlimit
      · simp only [hblank, if_false]
        by_cases hkeyword : t.type = .atKeyword
        · simp only [hkeyword, if_true]
          refine (halts_atRule h).bind fun found s hs => ?_
          cases found with
          | none => exact .pure (hs.falls_of_includes h hlimit)
          | some rule =>
              have hfalls := hs.2.falls_of_leaves h hlimit
              refine (halts_resolveAtRule hs.2.plain (hinside.behind hfalls) hs.1 true).bind ?_
              exact fun _ t ht => .pure (Falls.returns hfalls ht)
        · simp only [hkeyword, if_false]
          refine .peek ?_
          simp only [(h.cursor.checkDelim 0).1, Bool.false_and]
          by_cases hident : t.type = .ident
          · simp only [hident, if_true]
            refine (halts_declaration h).bind fun _ s hs => .pure ?_
            exact hs.leaves.falls_of_leaves h hlimit
          · by_cases hnesting : t.isDelim "&" = true
            · simp only [hident, hnesting, if_true, if_false]
              refine (halts_qualifiedRule h).bind fun rule s hs => ?_
              have hfalls := hs.2.falls_of_leaves h hlimit
              refine (halts_styleRule hs.2.plain (hinside.behind hfalls) hs.1).bind ?_
              exact fun _ t ht => .pure (Falls.returns hfalls ht)
            · simp only [hident, hnesting, if_false]
              exact hskip
  | block opener contents closer => exact .succ (fun n => by rw [styleStatement]; rintro _ ⟨⟩) hskip
  | call name args commas closer => exact .succ (fun n => by rw [styleStatement]; rintro _ ⟨⟩) hskip
  | reference dollar name => exact .succ (fun n => by rw [styleStatement]; rintro _ ⟨⟩) hskip

/-- Bodies come to an end when those one block deeper do, by induction on the rank. -/
theorem haltsBodies_of_inside {limit : Nat} (h : r.Plain) (hlimit : r.limits.includeDepth = limit)
    (hinside : HaltsInside r) :
    HaltsBodies r := by
  induction hrank : rank limit r.cursor.items using WellFoundedLT.induction generalizing r with
  | ind _ ih =>
      have hagain {s : Reader} (hs : Falls limit r s) : HaltsBodies s :=
        ih _ (hrank ▸ hs.items) hs.plain (hs.limits ▸ hlimit) (hinside.behind hs) rfl
      refine ⟨?_, ?_, ?_⟩
      · intro read
        refine .succ (fun n => by rw [styleEntries]) (.peek ?_)
        cases hfront : r.cursor.peek 0 with
        | none => exact .pure ⟨h, rfl, rfl, trivial⟩
        | some v =>
            refine (halts_styleStatement h hlimit hinside hfront).bind fun found s hs => ?_
            cases found with
            | none => exact ((hagain hs).styleEntries _).mono fun _ t ht => hs.thenKeep ht
            | some e => exact ((hagain hs).styleEntries _).mono fun _ t ht => hs.thenKeep ht
      · intro read
        refine .succ (fun n => by rw [ruleList]) ((halts_nextRule h hlimit).bind ?_)
        intro found s hs
        cases found with
        | none => exact .pure hs
        | some rule =>
            cases rule with
            | qualified rule =>
                refine (halts_styleRule hs.2.plain (hinside.behind hs.2) hs.1).bind fun e t ht => ?_
                have hrt := Falls.returns hs.2 ht
                exact ((hagain hrt).ruleList _).mono fun _ u hu => hrt.thenKeep hu
            | atRule rule =>
                refine (halts_resolveAtRule hs.2.plain (hinside.behind hs.2) hs.1 false).bind
                  fun e t ht => ?_
                have hrt := Falls.returns hs.2 ht
                exact ((hagain hrt).ruleList _).mono fun _ u hu => hrt.thenKeep hu
      · intro read
        refine .succ (fun n => by rw [keyframes]) ((halts_nextRule h hlimit).bind ?_)
        intro found s hs
        cases found with
        | none => exact .pure hs
        | some rule =>
            cases rule with
            | qualified rule =>
                refine (halts_styleBlock hs.2.plain (hinside.behind hs.2) hs.1).bind fun e t ht => ?_
                have hrt := Falls.returns hs.2 ht
                exact ((hagain hrt).keyframes _).mono fun _ u hu => hrt.thenKeep hu
            | atRule rule =>
                refine (halts_resolveAtRule hs.2.plain (hinside.behind hs.2) hs.1 true).bind
                  fun e t ht => ?_
                have hrt := Falls.returns hs.2 ht
                exact ((hagain hrt).keyframes _).mono fun _ u hu => hrt.thenKeep hu

/-- Bodies come to an end, by induction on the number of blocks that may still be opened. -/
theorem haltsBodies (h : r.Plain) :
    HaltsBodies r := by
  induction hroom : (r.limits.nestingDepth - r.nesting).toNat using Nat.strong_induction_on
    generalizing r with
  | _ room ih =>
      refine haltsBodies_of_inside h rfl ?_
      intro hlt s hs hlimits hnesting
      refine ih _ ?_ hs rfl
      rw [hlimits, hnesting]
      omega

end Read

/-! ## Stylesheets -/

theorem Reader.plain_ofTokens {ts : List Token} (h : ∀ t ∈ ts, t.Plain) (limits : Limits) :
    (Reader.ofTokens ts limits).Plain := by
  have hitems : (Cursor.ofTokens ts).items = (valuesOf ts).map .value := by
    unfold Cursor.ofTokens
    simp only
    split
    · rfl
    · rfl
  have hexpansions : (Cursor.ofTokens ts).expansions = [] := by
    unfold Cursor.ofTokens
    simp only
    split
    · rfl
    · rfl
  refine ⟨⟨?_, ?_⟩, ?_, ?_⟩
  · intro v hv
    rw [Reader.ofTokens, Cursor.rest, hitems] at hv
    simp only [List.filterMap_map, Function.comp_def, Item.value?, List.filterMap_some] at hv
    obtain ⟨t, ht, rfl⟩ := List.mem_map.mp hv
    exact .token (h t (List.mem_filter.mp ht).1)
  · rw [Reader.ofTokens, hitems, hexpansions, markers_map_value]
    rfl
  · intro f hf
    rw [List.mem_singleton.mp hf]
    exact Scope.plain_empty [] false
  · rw [Reader.ofTokens, hitems, markers_map_value]
    exact Nat.zero_le _

/-- Inclusion comes to an end: without dollar signs and equals signs, whatever mixins include each
other, there is a budget beyond which reading a stylesheet gives one and the same outcome, which is a
stylesheet or a fault. -/
theorem Sheet.parseTokens_terminates (limits : Limits) (file : String) (ts : List Token)
    (h : ∀ t ∈ ts, t.isDelim "$" = false ∧ t.isDelim "=" = false) :
    ∃ bound outcome, outcome.1 ≠ .error .exhausted ∧
      ∀ budget, bound ≤ budget → Sheet.parseTokens budget limits file ts = outcome := by
  obtain ⟨bound, outcome, houtcome, hrun⟩ :=
    (Read.haltsBodies (Reader.plain_ofTokens h limits)).ruleList []
  have hrun (budget : Nat) (hbudget : bound ≤ budget) :
      Read.ruleList budget [] (.ofTokens ts limits) = outcome :=
    hrun budget hbudget
  cases outcome with
  | ok rules s =>
      refine ⟨bound, (.ok ⟨file, rules⟩, s.events.reverse), by rintro ⟨⟩, ?_⟩
      intro budget hbudget
      unfold parseTokens run
      rw [hrun budget hbudget]
  | error stop s =>
      refine ⟨bound, (.error (locate file stop), s.events.reverse), ?_, ?_⟩
      · cases stop with
        | fault d => rintro ⟨⟩
        | exhausted => exact (houtcome rfl).elim
      · intro budget hbudget
        unfold parseTokens run
        rw [hrun budget hbudget]

/-- Two mixins that include each other, each twice and without a semicolon at the end. -/
def Sheet.mutualInclusion : String :=
  "@mixin p \x7b @include q; @include q \x7d @mixin q \x7b c: d; @include p, p \x7d a \x7b @include p; \x7d"

theorem Sheet.mutualInclusion_terminates :
    (∀ t ∈ tokenize mutualInclusion, t.isDelim "$" = false ∧ t.isDelim "=" = false) ∧
      ∃ bound outcome, outcome.1 ≠ .error .exhausted ∧ ∀ budget, bound ≤ budget →
        Sheet.parseTokens budget {} "" (tokenize mutualInclusion) = outcome := by
  have hall : (tokenize mutualInclusion).all
      (fun t => !t.isDelim "$" && !t.isDelim "=") = true := by
    cbv
  have hsigns : ∀ t ∈ tokenize mutualInclusion, t.isDelim "$" = false ∧ t.isDelim "=" = false := by
    intro t ht
    have ht := List.all_eq_true.mp hall t ht
    simpa using ht
  exact ⟨hsigns, parseTokens_terminates {} "" _ hsigns⟩

end Cascade

import Cascade.Proofs.Balance
import Cascade.Proofs.Grouping
import Mathlib.Data.List.Forall2

/-!
# Readers of included and inlined text

Two readers are compared.  The first one reads the body of a mixin that has been
put in front of it: groups are closed already, and a marker stands at the end of
the body.  The second one reads the same text as it was written, token by token.
One of them knows the mixin, and its name occurs nowhere else.

**Method.**  `Kin` relates what the two have left to read, `LikeScopes` relates
their scopes.  As long as the marker is ahead of the first reader, what stands
before the marker is `Guarded`: nothing there is read as more than it is, and no
statement that starts there ends at the marker.  `Alike` puts this together.

**Results.**
* `Alike.front`: both readers are at the end, at the same value, or at a group and
  the tokens that it is made of.
* `Alike.skipWhitespace`, `Alike.splice`, `Alike.spliceExpansion`: the relation is
  kept by what readers do.
-/

namespace Cascade

/-! ## Tokens at any depth -/

/-- All tokens of the value satisfy `p`, at any depth, and all names of its calls satisfy `q`. -/
inductive Value.Made (p q : Token → Prop) : Value → Prop
  | token {t : Token} : p t → Made p q (.token t)
  | block {opener : Token} {contents : List Value} {closer : Option Token} :
      (∀ v ∈ contents, Made p q v) → Made p q (.block opener contents closer)
  | call {name : Token} {args : List (List Value)} {commas : List Token} {closer : Option Token} :
      q name → (∀ arg ∈ args, ∀ v ∈ arg, Made p q v) → Made p q (.call name args commas closer)
  | reference {dollar name : Token} : Made p q (.reference dollar name)

/-- The body of the mixin and the defaults of its parameters are made so. -/
structure Mixin.Made (p q : Token → Prop) (x : Mixin) : Prop where
  body : ∀ v ∈ x.body, v.Made p q
  fallbacks : ∀ par ∈ x.parameterList, ∀ vs ∈ par.fallback, ∀ v ∈ vs, v.Made p q

/-- All values that a scope binds are made so, but for the mixin `m`. -/
structure Scope.Made (m : String) (p q : Token → Prop) (f : Scope) : Prop where
  assigned : ∀ e ∈ f.assigned, ∀ v ∈ e.2, v.Made p q
  aliases : ∀ e ∈ f.aliases, ∀ v ∈ e.2, v.Made p q
  mixins : ∀ k ≠ m, ∀ x ∈ f.mixins.find? k, x.Made p q

/-- The token does not name the mixin. -/
def Token.Clean (m : String) (t : Token) : Prop :=
  t.type = .ident ∨ t.type = .function → t.text ≠ m

/-- The token is read as it stands: it opens nothing and starts no variable. -/
def Token.Calm (t : Token) : Prop :=
  t.type.closer? = none ∧ t.isDelim "$" = false

abbrev Value.Clean (m : String) : Value → Prop :=
  Value.Made (Token.Clean m) (·.text ≠ m)

abbrev Value.Calm : Value → Prop :=
  Value.Made Token.Calm fun _ => True

abbrev Scope.Clean (m : String) : Scope → Prop :=
  Scope.Made m (Token.Clean m) (·.text ≠ m)

abbrev Scope.Calm (m : String) : Scope → Prop :=
  Scope.Made m Token.Calm fun _ => True

section Made

variable {m : String} {p q : Token → Prop}

theorem Scope.made_empty (names : List String) (isCapture : Bool) :
    Scope.Made m p q { parameters := names, isCapture := isCapture } :=
  ⟨fun _ h => (List.not_mem_nil h).elim, fun _ h => (List.not_mem_nil h).elim,
    fun _ _ _ h => (Option.not_mem_none _ h).elim⟩

/-- What is bound after a binding has been set was bound before, or is set now. -/
theorem Bindings.of_mem_set {α : Type} {b : Bindings α} {name : String} {x : α} {e : String × α}
    (h : e ∈ b.set name x) :
    e = (name, x) ∨ e ∈ b := by
  rcases List.mem_cons.mp h with rfl | h
  · exact .inl rfl
  · exact .inr (List.mem_filter.mp h).1

theorem Bindings.mem_of_find? {α : Type} {b : Bindings α} {name : String} {x : α}
    (h : b.find? name = some x) :
    (name, x) ∈ b := by
  obtain ⟨before, behind, hb, _⟩ := List.lookup_eq_some_iff.mp h
  rw [hb]
  simp

theorem Bindings.find?_set_of_ne {α : Type} (b : Bindings α) {name other : String} (x : α)
    (h : other ≠ name) :
    (b.set name x).find? other = b.find? other := by
  have hother : (other == name) = false := by simpa using h
  simp only [set, find?, List.lookup_cons, hother]
  induction b with
  | nil => rfl
  | cons e b ih =>
      obtain ⟨key, y⟩ := e
      by_cases hkey : key = name
      · subst hkey
        simpa [List.lookup_cons, hother] using ih
      · have hkeep : (key != name) = true := by simpa using hkey
        simp only [List.filter_cons, hkeep, if_true, List.lookup_cons]
        split
        · rfl
        · exact ih

theorem made_of_findVariable? {scopes : Scopes} {name : String} {vs : List Value}
    (h : ∀ f ∈ scopes.frames, f.Made m p q) (hvs : scopes.findVariable? name = some vs) :
    ∀ v ∈ vs, v.Made p q := by
  obtain ⟨f, hf, hfind⟩ := List.exists_of_findSome?_eq_some hvs
  exact (h f hf).assigned _ (Bindings.mem_of_find? hfind)

theorem made_of_findAlias? {scopes : Scopes} {name : String} {vs : List Value}
    (h : ∀ f ∈ scopes.frames, f.Made m p q) (hvs : scopes.findAlias? name = some vs) :
    ∀ v ∈ vs, v.Made p q := by
  obtain ⟨f, hf, hfind⟩ := List.exists_of_findSome?_eq_some hvs
  exact (h f hf).aliases _ (Bindings.mem_of_find? hfind)

theorem made_of_findMixin? {scopes : Scopes} {name : String} {x : Mixin} (hname : name ≠ m)
    (h : ∀ f ∈ scopes.frames, f.Made m p q) (hx : scopes.findMixin? name = some x) :
    x.Made p q := by
  obtain ⟨f, hf, hfind⟩ := List.exists_of_findSome?_eq_some hx
  exact (h f hf).mixins name hname x hfind

/-- The scopes behind a change of the innermost one. -/
theorem made_frames {scopes : Scopes} {frame : Scope} (h : ∀ f ∈ scopes.frames, f.Made m p q)
    (hframe : frame.Made m p q) :
    ∀ f ∈ (Scopes.frames { scopes with current := frame }), f.Made m p q := by
  intro f hf
  rcases List.mem_cons.mp hf with rfl | hf
  · exact hframe
  · exact h f (List.mem_cons_of_mem _ hf)

theorem made_setVariable {scopes : Scopes} (h : ∀ f ∈ scopes.frames, f.Made m p q) {name : String}
    {vs : List Value} (hvs : ∀ v ∈ vs, v.Made p q) :
    ∀ f ∈ (scopes.setVariable name vs).frames, f.Made m p q := by
  have hcurrent := h scopes.current List.mem_cons_self
  refine made_frames h ⟨?_, hcurrent.aliases, hcurrent.mixins⟩
  intro e he
  rcases Bindings.of_mem_set he with rfl | he
  · exact hvs
  · exact hcurrent.assigned e he

theorem made_setAlias {scopes : Scopes} (h : ∀ f ∈ scopes.frames, f.Made m p q) {name : String}
    {vs : List Value} (hvs : ∀ v ∈ vs, v.Made p q) :
    ∀ f ∈ (scopes.setAlias name vs).frames, f.Made m p q := by
  have hcurrent := h scopes.current List.mem_cons_self
  refine made_frames h ⟨hcurrent.assigned, ?_, hcurrent.mixins⟩
  intro e he
  rcases Bindings.of_mem_set he with rfl | he
  · exact hvs
  · exact hcurrent.aliases e he

theorem made_setMixin {scopes : Scopes} (h : ∀ f ∈ scopes.frames, f.Made m p q) {name : String}
    {x : Mixin} (hx : x.Made p q) :
    ∀ f ∈ (scopes.setMixin name x).frames, f.Made m p q := by
  have hcurrent := h scopes.current List.mem_cons_self
  refine made_frames h ⟨hcurrent.assigned, hcurrent.aliases, ?_⟩
  intro k hk y hy
  by_cases hname : k = name
  · subst hname
    rw [Bindings.find?_set] at hy
    cases hy
    exact hx
  · rw [Bindings.find?_set_of_ne _ _ hname] at hy
    exact hcurrent.mixins k hk y hy

end Made

/-! ## What is left to read -/

/-- What two readers are compared for. -/
structure Pairing where
  /-- The mixin that the readers may not agree on. -/
  mixin : String
  /-- What the second reader knows of it. -/
  known : Option Mixin
  /-- The first reader may find a group where the second one finds its tokens. -/
  grouping : Prop

/-- The group is made of the tokens. -/
inductive RawGroup : Value → List Token → Prop
  | block {opener closer : Token} {inner : List Token} {us : List Value} :
      opener.type.partner? = some closer.type → Grouped inner us →
      RawGroup (.block opener us (some closer)) (opener :: (inner ++ [closer]))
  | call {name closer : Token} {inner : List Token} {us : List Value} :
      name.type = .function → closer.type = .closeParen → Grouped inner us →
      RawGroup (callOf name us closer) (name :: (inner ++ [closer]))

/-- The second items are the first ones without the markers of the mixin, and some groups stand there
as tokens. -/
inductive Kin (p : Pairing) : List Item → List Item → Prop
  | nil : Kin p [] []
  | value {v : Value} {l l' : List Item} : Kin p l l' → Kin p (.value v :: l) (.value v :: l')
  | marker {k : String} {l l' : List Item} :
      k ≠ p.mixin → Kin p l l' → Kin p (.marker k :: l) (.marker k :: l')
  | own {l l' : List Item} : Kin p l l' → Kin p (.marker p.mixin :: l) l'
  | group {g : Value} {ts : List Token} {l l' : List Item} :
      p.grouping → RawGroup g ts → Kin p l l' → Kin p (.value g :: l) (Read.tokenItems ts ++ l')

/-- The mixin is being expanded. -/
def Owned (m : String) (l : List Item) : Prop :=
  .marker m ∈ l

/-- Before the end of the mixin there is a semicolon or the end of another mixin. -/
def HasStop (m : String) : List Item → Prop
  | [] => False
  | .marker k :: _ => k ≠ m
  | .value v :: l => v.hasType .semicolon = true ∨ HasStop m l

/-- A statement that is under way ends before the mixin does. -/
def Pending (m : String) (l : List Item) : Prop :=
  Owned m l → HasStop m l

/-- What stands before the end of the mixin is read as it stands, and every statement there ends
before the mixin does. -/
def Guarded (m : String) : List Item → Prop
  | [] => True
  | .marker _ :: l => Guarded m l
  | .value v :: l =>
    (Owned m l → v.Calm ∧
      (v.isWhitespace = true ∨ v.hasType .semicolon = true ∨ HasStop m l)) ∧ Guarded m l

section Items

variable {p : Pairing} {m : String} {l l' k k' lead : List Item} {v : Value} {vs : List Value}

theorem RawGroup.exists_opener {g : Value} {ts : List Token} (h : RawGroup g ts) :
    ∃ opener rest, ts = opener :: rest ∧ opener.type.closer?.isSome = true := by
  cases h with
  | @block opener closer inner us hpartner _ =>
      exact ⟨opener, _, rfl, by rw [TokenType.closer?_of_partner? hpartner]; rfl⟩
  | @call name closer inner us hname _ _ =>
      refine ⟨name, _, rfl, ?_⟩
      rw [hname]
      rfl

theorem RawGroup.balanced {g : Value} {ts : List Token} (h : RawGroup g ts) :
    BracketBalanced ts := by
  cases h with
  | block hpartner hinner =>
      have hgrouped := Grouped.block hpartner hinner .nil
      exact hgrouped.balanced
  | call hname hparen hinner =>
      have hgrouped := Grouped.call hname hparen hinner .nil
      exact hgrouped.balanced

theorem RawGroup.isGroup {g : Value} {ts : List Token} (h : RawGroup g ts) :
    g.IsGroup := by
  cases h with
  | block => exact .inl rfl
  | call => exact .inr rfl

theorem Kin.refl (h : ¬ Owned p.mixin l) :
    Kin p l l := by
  induction l with
  | nil => exact .nil
  | cons item l ih =>
      have hl := ih fun hown => h (List.mem_cons_of_mem _ hown)
      cases item with
      | value v => exact .value hl
      | marker name =>
          refine .marker ?_ hl
          rintro rfl
          exact h List.mem_cons_self

theorem Kin.append (h : Kin p l l') (hk : Kin p k k') :
    Kin p (l ++ k) (l' ++ k') := by
  induction h with
  | nil => exact hk
  | value _ ih => exact .value ih
  | marker hne _ ih => exact .marker hne ih
  | own _ ih => exact .own ih
  | group hgrouping hraw _ ih =>
      rw [List.append_assoc]
      exact .group hgrouping hraw ih

theorem Kin.values (vs : List Value) (hk : Kin p k k') :
    Kin p (vs.map .value ++ k) (vs.map .value ++ k') := by
  induction vs with
  | nil => exact hk
  | cons v vs ih => exact .value ih

/-- Grouped values and the tokens that they are made of. -/
theorem Kin.of_grouped (hgrouping : p.grouping) {ts : List Token} (h : Grouped ts vs) :
    Kin p (vs.map .value) (Read.tokenItems ts) := by
  induction h with
  | nil => exact .nil
  | single _ _ _ ih => exact .value ih
  | @block opener closer inner ts us vs hpartner hinner _ _ ih =>
      have hgroup := Kin.group hgrouping (.block hpartner hinner) ih
      simpa [Read.tokenItems] using hgroup
  | @call name closer inner ts us vs hname hparen hinner _ _ ih =>
      have hgroup := Kin.group hgrouping (.call hname hparen hinner) ih
      simpa [Read.tokenItems] using hgroup

theorem owned_of_append (h : Owned m l) :
    Owned m (k ++ l) :=
  List.mem_append_right k h

theorem not_owned_values (vs : List Value) :
    ¬ Owned m (vs.map .value) := by
  intro h
  obtain ⟨v, _, hv⟩ := List.mem_map.mp h
  cases hv

theorem owned_values_append :
    Owned m (vs.map .value ++ l) ↔ Owned m l := by
  constructor
  · intro h
    rcases List.mem_append.mp h with h | h
    · exact (not_owned_values vs h).elim
    · exact h
  · exact owned_of_append

theorem HasStop.values_append (h : HasStop m l) :
    HasStop m (vs.map .value ++ l) := by
  induction vs with
  | nil => exact h
  | cons v vs ih => exact .inr ih

theorem Pending.values_append (h : Pending m l) :
    Pending m (vs.map .value ++ l) :=
  fun hown => (h (owned_values_append.mp hown)).values_append

/-- A pending statement is not at the end of the mixin. -/
theorem Pending.not_own (h : Pending m (.marker m :: l)) :
    False :=
  h List.mem_cons_self rfl

theorem Guarded.of_append (h : Guarded m (k ++ l)) :
    Guarded m l := by
  induction k with
  | nil => exact h
  | cons item k ih =>
      cases item with
      | value v => exact ih h.2
      | marker name => exact ih h

theorem Guarded.of_not_owned (h : ¬ Owned m l) :
    Guarded m l := by
  induction l with
  | nil => trivial
  | cons item l ih =>
      have hl : ¬ Owned m l := fun hown => h (List.mem_cons_of_mem _ hown)
      cases item with
      | value v => exact ⟨fun hown => (hl hown).elim, ih hl⟩
      | marker name => exact ih hl

/-- Values put in front of a pending statement. -/
theorem Guarded.values_append (hvs : Owned m l → ∀ v ∈ vs, v.Calm) (hstop : Pending m l)
    (h : Guarded m l) :
    Guarded m (vs.map .value ++ l) := by
  induction vs with
  | nil => exact h
  | cons v vs ih =>
      refine ⟨?_, ih fun hown u hu => hvs hown u (List.mem_cons_of_mem _ hu)⟩
      intro hown
      have hl := owned_values_append.mp hown
      exact ⟨hvs hl v List.mem_cons_self, .inr (.inr (hstop hl).values_append)⟩

end Items

/-! ## Scopes -/

/-- The scopes bind the same, but for the mixin `m`. -/
structure SameScope (m : String) (f g : Scope) : Prop where
  assigned : g.assigned = f.assigned
  aliases : g.aliases = f.aliases
  parameters : g.parameters = f.parameters
  isCapture : g.isCapture = f.isCapture
  mixins : ∀ k ≠ m, g.mixins.find? k = f.mixins.find? k

/-- The scopes of the two readers. -/
structure LikeScopes (p : Pairing) (a b : Scopes) : Prop where
  frames : List.Forall₂ (SameScope p.mixin) a.frames b.frames
  known : b.findMixin? p.mixin = p.known
  clean : ∀ f ∈ a.frames, f.Clean p.mixin

/-- What is looked up in one frame after the other is the same where each frame gives the same. -/
theorem findSome?_congr {α : Type} {m : String} {look : Scope → Option α} {fs gs : List Scope}
    (h : List.Forall₂ (SameScope m) fs gs) (hlook : ∀ f g, SameScope m f g → look g = look f) :
    gs.findSome? look = fs.findSome? look := by
  induction h with
  | nil => rfl
  | @cons f g fs gs hfg _ ih => rw [List.findSome?_cons, List.findSome?_cons, hlook f g hfg, ih]

theorem any_congr {m : String} {test : Scope → Bool} {fs gs : List Scope}
    (h : List.Forall₂ (SameScope m) fs gs) (htest : ∀ f g, SameScope m f g → test g = test f) :
    gs.any test = fs.any test := by
  induction h with
  | nil => rfl
  | @cons f g fs gs hfg _ ih => rw [List.any_cons, List.any_cons, htest f g hfg, ih]

namespace LikeScopes

variable {p : Pairing} {a b : Scopes}

theorem findVariable? (h : LikeScopes p a b) (name : String) :
    b.findVariable? name = a.findVariable? name :=
  findSome?_congr h.frames fun _ _ hfg => by rw [hfg.assigned]

theorem findAlias? (h : LikeScopes p a b) (name : String) :
    b.findAlias? name = a.findAlias? name :=
  findSome?_congr h.frames fun _ _ hfg => by rw [hfg.aliases]

theorem findMixin? (h : LikeScopes p a b) {name : String} (hname : name ≠ p.mixin) :
    b.findMixin? name = a.findMixin? name :=
  findSome?_congr h.frames fun _ _ hfg => hfg.mixins name hname

theorem isParameter (h : LikeScopes p a b) (name : String) :
    b.isParameter name = a.isParameter name :=
  any_congr h.frames fun _ _ hfg => by rw [hfg.parameters]

theorem isCapturing (h : LikeScopes p a b) :
    b.isCapturing = a.isCapturing :=
  any_congr h.frames fun _ _ hfg => hfg.isCapture

/-- One more scope on both sides. -/
theorem push (h : LikeScopes p a b) (names : List String) (isCapture : Bool) :
    LikeScopes p ⟨{ parameters := names, isCapture := isCapture }, a.frames⟩
      ⟨{ parameters := names, isCapture := isCapture }, b.frames⟩ where
  frames := .cons ⟨rfl, rfl, rfl, rfl, fun _ _ => rfl⟩ h.frames
  known := by
    rw [← h.known]
    rfl
  clean := by
    intro f hf
    rcases List.mem_cons.mp hf with rfl | hf
    · exact Scope.made_empty _ _
    · exact h.clean f hf

theorem setVariable (h : LikeScopes p a b) (name : String) {vs : List Value}
    (hvs : ∀ v ∈ vs, v.Clean p.mixin) :
    LikeScopes p (a.setVariable name vs) (b.setVariable name vs) where
  frames := by
    obtain ⟨current, outer⟩ := List.forall₂_cons.mp h.frames
    exact .cons { current with assigned := congrArg (·.set name vs) current.assigned } outer
  known := h.known
  clean := made_setVariable h.clean hvs

theorem setAlias (h : LikeScopes p a b) (name : String) {vs : List Value}
    (hvs : ∀ v ∈ vs, v.Clean p.mixin) :
    LikeScopes p (a.setAlias name vs) (b.setAlias name vs) where
  frames := by
    obtain ⟨current, outer⟩ := List.forall₂_cons.mp h.frames
    exact .cons { current with aliases := congrArg (·.set (Text.foldCase name) vs) current.aliases } outer
  known := h.known
  clean := made_setAlias h.clean hvs

theorem setMixin (h : LikeScopes p a b) {name : String} (hname : name ≠ p.mixin) {x : Mixin}
    (hx : x.Made (Token.Clean p.mixin) (·.text ≠ p.mixin)) :
    LikeScopes p (a.setMixin name x) (b.setMixin name x) where
  frames := by
    obtain ⟨current, outer⟩ := List.forall₂_cons.mp h.frames
    refine .cons { current with mixins := ?_ } outer
    intro k hk
    change (b.current.mixins.set name x).find? k = (a.current.mixins.set name x).find? k
    by_cases hkey : k = name
    · subst hkey
      rw [Bindings.find?_set, Bindings.find?_set]
    · rw [Bindings.find?_set_of_ne _ _ hkey, Bindings.find?_set_of_ne _ _ hkey, current.mixins k hk]
  known := by
    rw [← h.known]
    simp only [Scopes.findMixin?, Scopes.frames, Scopes.setMixin, List.findSome?_cons,
      Bindings.find?_set_of_ne _ _ hname.symm]
  clean := made_setMixin h.clean hx

end LikeScopes

/-! ## Readers -/

/-- The two readers are at the same place. -/
structure Alike (p : Pairing) (r s : Reader) : Prop where
  kin : Kin p r.cursor.items s.cursor.items
  clean : ∀ v ∈ r.cursor.rest, v.Clean p.mixin
  guarded : Guarded p.mixin r.cursor.items
  scopes : LikeScopes p r.scopes s.scopes
  calm : Owned p.mixin r.cursor.items → ∀ f ∈ r.scopes.frames, f.Calm p.mixin

/-- The value fits what is left to read: it does not name the mixin and, as long as the mixin is
being expanded, it is read as it stands. -/
def Fits (p : Pairing) (l : List Item) (v : Value) : Prop :=
  v.Clean p.mixin ∧ (Owned p.mixin l → v.Calm)

section Alike

variable {p : Pairing} {r s t u : Reader} {l l' k k' lead : List Item} {v : Value} {vs : List Value}

theorem Fits.mono (h : Fits p l v) (hown : Owned p.mixin k → Owned p.mixin l) :
    Fits p k v :=
  ⟨h.1, fun hk => h.2 (hown hk)⟩

/-- Only what is left to read and the scopes count. -/
theorem Alike.congr (h : Alike p r s) (hitems : t.cursor.items = r.cursor.items)
    (hscopes : t.scopes = r.scopes) (hitems' : u.cursor.items = s.cursor.items)
    (hscopes' : u.scopes = s.scopes) :
    Alike p t u where
  kin := by rw [hitems, hitems']; exact h.kin
  clean := by rw [Cursor.rest, hitems]; exact h.clean
  guarded := by rw [hitems]; exact h.guarded
  scopes := by rw [hscopes, hscopes']; exact h.scopes
  calm := by rw [hitems, hscopes]; exact h.calm

/-- Items at the front have been read. -/
theorem Alike.drop (h : Alike p r s) (hitems : r.cursor.items = lead ++ l) (hkin : Kin p l l')
    (ht : t.cursor.items = l) (htscopes : t.scopes = r.scopes) (hu : u.cursor.items = l')
    (huscopes : u.scopes = s.scopes) :
    Alike p t u where
  kin := by rw [ht, hu]; exact hkin
  clean := by
    intro v hv
    refine h.clean v ?_
    rw [Cursor.rest, ht] at hv
    rw [Cursor.rest, hitems, List.filterMap_append]
    exact List.mem_append_right _ hv
  guarded := by
    rw [ht]
    have hguarded := h.guarded
    rw [hitems] at hguarded
    exact hguarded.of_append
  scopes := by rw [htscopes, huscopes]; exact h.scopes
  calm := by
    rw [ht, htscopes]
    intro hown
    refine h.calm ?_
    rw [hitems]
    exact owned_of_append hown

/-! ## The front of what is left -/

/-- The front value is not the end of a statement.  Where it is whitespace, a statement is under way
and goes on with it. -/
def Ready (m : String) (l : List Item) : Prop :=
  ∃ v, Item.first? l = some v ∧ v.hasType .semicolon = false ∧
    (v.isWhitespace = true → Pending m l ∧ ∃ k, l = .value v :: k)

/-- Behind the front value of the first reader. -/
structure Behind (p : Pairing) (r : Reader) (v : Value) (l : List Item) : Prop where
  fits : Fits p l v
  owned : Owned p.mixin l → Owned p.mixin r.cursor.items
  pending : v.isWhitespace = false → v.hasType .semicolon = false → Pending p.mixin l
  ready : Ready p.mixin r.cursor.items → Pending p.mixin l

/-- Both readers are at the same value. -/
structure SameFront (p : Pairing) (r s : Reader) (v : Value) : Prop where
  left : r.cursor.peek 0 = some v
  right : s.cursor.peek 0 = some v
  behind : Behind p r v r.cursor.next.2.items
  alike : ∀ {t u : Reader}, t.cursor.items = r.cursor.next.2.items → t.scopes = r.scopes →
    u.cursor.items = s.cursor.next.2.items → u.scopes = s.scopes → Alike p t u

/-- The first reader is at a group, the second one at the tokens that it is made of. -/
structure GroupFront (p : Pairing) (r s : Reader) (g : Value) (ts : List Token)
    (rest : List Item) : Prop where
  left : r.cursor.peek 0 = some g
  right : ∃ lead, Item.Blank lead ∧ s.cursor.items = lead ++ (Read.tokenItems ts ++ rest)
  grouping : p.grouping
  raw : RawGroup g ts
  behind : Behind p r g r.cursor.next.2.items
  alike : ∀ {t u : Reader}, t.cursor.items = r.cursor.next.2.items → t.scopes = r.scopes →
    u.cursor.items = rest → u.scopes = s.scopes → Alike p t u

/-- What the two readers are at. -/
inductive Front (p : Pairing) (r s : Reader) : Prop
  | ended : r.cursor.peek 0 = none → s.cursor.peek 0 = none → Front p r s
  | same {v : Value} : SameFront p r s v → Front p r s
  | group {g : Value} {ts : List Token} {rest : List Item} :
      GroupFront p r s g ts rest → Front p r s

theorem Item.blank_marker (name : String) :
    Item.Blank (.marker name :: lead) ↔ Item.Blank lead := by
  simp [Item.Blank, Item.value?, List.filterMap_cons]

/-- The first items that are no markers. -/
theorem Kin.front (h : Kin p l l') :
    (Item.Blank l ∧ Item.Blank l') ∨
    (∃ lead lead' v k k', Item.Blank lead ∧ Item.Blank lead' ∧ l = lead ++ .value v :: k ∧
      l' = lead' ++ .value v :: k' ∧ Kin p k k') ∨
    (∃ lead lead' g ts k k', Item.Blank lead ∧ Item.Blank lead' ∧ l = lead ++ .value g :: k ∧
      l' = lead' ++ (Read.tokenItems ts ++ k') ∧ p.grouping ∧ RawGroup g ts ∧ Kin p k k') := by
  induction h with
  | nil => exact .inl ⟨rfl, rfl⟩
  | @value v k k' h _ => exact .inr (.inl ⟨[], [], v, k, k', rfl, rfl, rfl, rfl, h⟩)
  | @group g ts k k' hgrouping hraw h _ =>
      exact .inr (.inr ⟨[], [], g, ts, k, k', rfl, rfl, rfl, rfl, hgrouping, hraw, h⟩)
  | @marker name l l' _ _ ih =>
      rcases ih with ⟨hl, hl'⟩ | ⟨lead, lead', v, k, k', hlead, hlead', rfl, rfl, hk⟩ |
        ⟨lead, lead', g, ts, k, k', hlead, hlead', rfl, rfl, hg⟩
      · exact .inl ⟨(Item.blank_marker _).mpr hl, (Item.blank_marker _).mpr hl'⟩
      · exact .inr (.inl ⟨.marker name :: lead, .marker name :: lead', v, k, k',
          (Item.blank_marker _).mpr hlead, (Item.blank_marker _).mpr hlead', rfl, rfl, hk⟩)
      · exact .inr (.inr ⟨.marker name :: lead, .marker name :: lead', g, ts, k, k',
          (Item.blank_marker _).mpr hlead, (Item.blank_marker _).mpr hlead', rfl, rfl, hg⟩)
  | @own l l' _ ih =>
      rcases ih with ⟨hl, hl'⟩ | ⟨lead, lead', v, k, k', hlead, hlead', rfl, rfl, hk⟩ |
        ⟨lead, lead', g, ts, k, k', hlead, hlead', rfl, rfl, hg⟩
      · exact .inl ⟨(Item.blank_marker _).mpr hl, hl'⟩
      · exact .inr (.inl ⟨.marker p.mixin :: lead, lead', v, k, k',
          (Item.blank_marker _).mpr hlead, hlead', rfl, rfl, hk⟩)
      · exact .inr (.inr ⟨.marker p.mixin :: lead, lead', g, ts, k, k',
          (Item.blank_marker _).mpr hlead, hlead', rfl, rfl, hg⟩)

theorem Item.first?_of_blank (hlead : Item.Blank lead) :
    Item.first? (lead ++ .value v :: k) = some v := by
  have hlead : lead.filterMap Item.value? = [] := hlead
  rw [Cursor.first?_eq_head?, List.filterMap_append, hlead]
  rfl

theorem Pending.behind {m : String} (h : Pending m (.value v :: k))
    (hv : v.hasType .semicolon = false) :
    Pending m k := by
  intro hown
  rcases h (List.mem_cons_of_mem _ hown) with hsemicolon | hstop
  · rw [hv] at hsemicolon
    cases hsemicolon
  · exact hstop

theorem Alike.behind (h : Alike p r s) (hlead : Item.Blank lead)
    (hitems : r.cursor.items = lead ++ .value v :: k) :
    Behind p r v k := by
  have hguarded := h.guarded
  rw [hitems] at hguarded
  have hfront := hguarded.of_append.1
  have hpending (hblank : v.isWhitespace = false) (hsemicolon : v.hasType .semicolon = false) :
      Pending p.mixin k := by
    intro hown
    rcases (hfront hown).2 with hv | hv | hstop
    · rw [hblank] at hv
      cases hv
    · rw [hsemicolon] at hv
      cases hv
    · exact hstop
  refine ⟨⟨?_, fun hown => (hfront hown).1⟩, ?_, hpending, ?_⟩
  · refine h.clean v ?_
    rw [Cursor.rest_of_blank hlead hitems]
    exact List.mem_cons_self
  · intro hown
    rw [hitems]
    exact owned_of_append (List.mem_cons_of_mem _ hown)
  · rintro ⟨w, hw, hsemicolon, hblank⟩
    rw [hitems, Item.first?_of_blank hlead] at hw
    cases hw
    cases hv : v.isWhitespace with
    | false => exact hpending hv hsemicolon
    | true =>
        obtain ⟨hunder, k', hk'⟩ := hblank hv
        rw [hk'] at hunder
        have hk : k' = k := by
          rw [hitems] at hk'
          cases lead with
          | nil =>
              cases hk'
              rfl
          | cons item lead =>
              cases hk'
              simp [Item.Blank, Item.value?] at hlead
        subst hk
        exact hunder.behind hsemicolon

theorem Cursor.peek_of_blank_end {c : Cursor} (h : Item.Blank c.items) :
    c.peek 0 = none := by
  have hrest : c.rest = [] := h
  rw [Cursor.peek_eq_getElem?, hrest]
  rfl

/-- Both readers are at the end, at the same value, or at a group and its tokens. -/
theorem Alike.front (h : Alike p r s) :
    Front p r s := by
  rcases h.kin.front with ⟨hl, hl'⟩ | ⟨lead, lead', v, k, k', hlead, hlead', hitems, hitems', hk⟩ |
    ⟨lead, lead', g, ts, k, k', hlead, hlead', hitems, hitems', hgrouping, hraw, hk⟩
  · exact .ended (Cursor.peek_of_blank_end hl) (Cursor.peek_of_blank_end hl')
  · have hnext := Cursor.items_next_of_blank hlead hitems
    have hnext' := Cursor.items_next_of_blank hlead' hitems'
    refine .same ⟨Cursor.peek_of_blank hlead hitems, Cursor.peek_of_blank hlead' hitems', ?_, ?_⟩
    · rw [hnext]
      exact h.behind hlead hitems
    · intro t u ht htscopes hu huscopes
      rw [hnext] at ht
      rw [hnext'] at hu
      rw [← List.singleton_append, ← List.append_assoc] at hitems
      exact h.drop hitems hk ht htscopes hu huscopes
  · have hnext := Cursor.items_next_of_blank hlead hitems
    refine .group ⟨Cursor.peek_of_blank hlead hitems, ⟨lead', hlead', hitems'⟩, hgrouping, hraw,
      ?_, ?_⟩
    · rw [hnext]
      exact h.behind hlead hitems
    · intro t u ht htscopes hu huscopes
      rw [hnext] at ht
      rw [← List.singleton_append, ← List.append_assoc] at hitems
      exact h.drop hitems hk ht htscopes hu huscopes

/-- Both readers have read the value. -/
theorem SameFront.passed (h : SameFront p r s v) :
    Alike p { r with cursor := r.cursor.next.2 } { s with cursor := s.cursor.next.2 } :=
  h.alike rfl rfl rfl rfl

/-- The first reader has read the group, and the second one its tokens. -/
theorem GroupFront.passed {g : Value} {ts : List Token} {rest : List Item}
    (h : GroupFront p r s g ts rest) (hu : u.cursor.items = rest) (huscopes : u.scopes = s.scopes) :
    Alike p { r with cursor := r.cursor.next.2 } u :=
  h.alike rfl rfl hu huscopes

theorem RawGroup.hasType {g : Value} {ts : List Token} (h : RawGroup g ts) (type : TokenType) :
    g.hasType type = false := by
  cases h with
  | block => rfl
  | call => rfl

theorem RawGroup.isDelim {g : Value} {ts : List Token} (h : RawGroup g ts) (text : String) :
    g.isDelim text = false := by
  cases h with
  | block => rfl
  | call => rfl

/-- The second reader is at the token that opens the group. -/
theorem GroupFront.opener {g : Value} {ts : List Token} {rest : List Item}
    (h : GroupFront p r s g ts rest) :
    ∃ opener, s.cursor.peek 0 = some (.token opener) ∧ opener.type.closer?.isSome = true := by
  obtain ⟨lead, hlead, hitems⟩ := h.right
  obtain ⟨opener, inner, rfl, hopener⟩ := h.raw.exists_opener
  exact ⟨opener, Cursor.peek_of_blank hlead hitems, hopener⟩

theorem hasType_of_opener {t : Token} {type : TokenType} (ht : t.type.closer?.isSome = true)
    (htype : type.closer? = none) :
    (Value.token t).hasType type = false := by
  cases h : (Value.token t).hasType type with
  | false => rfl
  | true =>
      have heq : t.type = type := by simpa [Value.hasType] using h
      rw [heq, htype] at ht
      cases ht

theorem isDelim_of_opener {t : Token} (ht : t.type.closer?.isSome = true) (text : String) :
    t.isDelim text = false := by
  have hdelim : t.type ≠ .delim := by
    intro htype
    rw [htype] at ht
    cases ht
  simp [Token.isDelim, hdelim]

/-- Both readers are, or are not, at a token of a type that opens nothing. -/
theorem Alike.check (h : Alike p r s) {type : TokenType} (htype : type.closer? = none) :
    s.cursor.check 0 type = r.cursor.check 0 type := by
  unfold Cursor.check
  cases h.front with
  | ended hr hs => rw [hr, hs]
  | same hfront => rw [hfront.left, hfront.right]
  | group hfront =>
      obtain ⟨opener, hs, hopener⟩ := hfront.opener
      rw [hfront.left, hs]
      exact (hasType_of_opener hopener htype).trans (hfront.raw.hasType type).symm

theorem Alike.checkDelim (h : Alike p r s) (text : String) :
    s.cursor.checkDelim 0 text = r.cursor.checkDelim 0 text := by
  unfold Cursor.checkDelim
  cases h.front with
  | ended hr hs => rw [hr, hs]
  | same hfront => rw [hfront.left, hfront.right]
  | group hfront =>
      obtain ⟨opener, hs, hopener⟩ := hfront.opener
      rw [hfront.left, hs]
      exact (isDelim_of_opener hopener text).trans (hfront.raw.isDelim text).symm

theorem Alike.sameFront_of_token (h : Alike p r s) {t : Token}
    (hpeek : r.cursor.peek 0 = some (.token t)) :
    SameFront p r s (.token t) := by
  cases h.front with
  | ended hr _ =>
      rw [hr] at hpeek
      cases hpeek
  | same hfront =>
      have hleft := hfront.left
      rw [hpeek] at hleft
      cases hleft
      exact hfront
  | group hfront =>
      have hleft := hfront.left
      rw [hpeek] at hleft
      cases hleft
      cases hfront.raw

theorem Alike.sameFront_of_check (h : Alike p r s) {type : TokenType}
    (hcheck : r.cursor.check 0 type = true) :
    ∃ v, SameFront p r s v := by
  unfold Cursor.check at hcheck
  cases h.front with
  | ended hr _ => simp [hr] at hcheck
  | same hfront => exact ⟨_, hfront⟩
  | group hfront => simp [hfront.left, hfront.raw.hasType] at hcheck

theorem Alike.sameFront_of_checkDelim (h : Alike p r s) {text : String}
    (hcheck : r.cursor.checkDelim 0 text = true) :
    ∃ v, SameFront p r s v := by
  unfold Cursor.checkDelim at hcheck
  cases h.front with
  | ended hr _ => simp [hr] at hcheck
  | same hfront => exact ⟨_, hfront⟩
  | group hfront => simp [hfront.left, hfront.raw.isDelim] at hcheck

theorem Alike.atEnd (h : Alike p r s) :
    s.cursor.atEnd = r.cursor.atEnd := by
  unfold Cursor.atEnd
  cases h.front with
  | ended hr hs => rw [hr, hs]
  | same hfront => rw [hfront.left, hfront.right]
  | group hfront =>
      obtain ⟨opener, hs, _⟩ := hfront.opener
      rw [hfront.left, hs]
      rfl

theorem Cursor.peek_succ (c : Cursor) (n : Nat) :
    c.peek (n + 1) = c.next.2.peek n := by
  rw [Cursor.peek_eq_getElem?, Cursor.peek_eq_getElem?, Cursor.rest_next, List.getElem?_tail]

theorem Alike.isVariableStart (h : Alike p r s) :
    (s.cursor.checkDelim 0 "$" && s.cursor.check 1 .ident) =
      (r.cursor.checkDelim 0 "$" && r.cursor.check 1 .ident) := by
  rw [h.checkDelim]
  cases h.front with
  | ended hr _ => simp [Cursor.checkDelim, hr]
  | group hfront => simp [Cursor.checkDelim, hfront.left, hfront.raw.isDelim]
  | same hfront =>
      have hcheck := hfront.passed.check (show TokenType.ident.closer? = none from rfl)
      unfold Cursor.check at hcheck ⊢
      rw [Cursor.peek_succ, Cursor.peek_succ, hcheck]

theorem type_ne_of_opener {t : Token} {type : TokenType} (ht : t.type.closer?.isSome = true)
    (htype : type.closer? = none) :
    t.type ≠ type := by
  rintro rfl
  rw [htype] at ht
  cases ht

/-- No variable starts at a group. -/
theorem GroupFront.isVariableStart {g : Value} {ts : List Token} {rest : List Item}
    (h : GroupFront p r s g ts rest) :
    (s.cursor.checkDelim 0 "$" && s.cursor.check 1 .ident) = false := by
  obtain ⟨o, hs, hopener⟩ := h.opener
  simp [Cursor.checkDelim, hs, Value.isDelim, isDelim_of_opener hopener]

/-- A statement that is under way is at the end of a mixin for both readers, or for none. -/
theorem Alike.atExpansionEnd (h : Alike p r s) (hpending : Pending p.mixin r.cursor.items) :
    s.cursor.atExpansionEnd = r.cursor.atExpansionEnd := by
  have hkin := h.kin
  unfold Cursor.atExpansionEnd
  revert hkin hpending
  generalize r.cursor.items = l
  generalize s.cursor.items = l'
  intro hpending hkin
  cases hkin with
  | nil => rfl
  | value => rfl
  | marker => rfl
  | own => exact hpending.not_own.elim
  | group _ hraw _ =>
      obtain ⟨opener, inner, rfl, _⟩ := hraw.exists_opener
      rfl

theorem ready_of_peek {m : String} (hpending : Pending m r.cursor.items)
    (hpeek : r.cursor.peek 0 = some v) (hend : r.cursor.atExpansionEnd = false)
    (hv : v.hasType .semicolon = false) :
    Ready m r.cursor.items := by
  have hfirst : Item.first? r.cursor.items = some v := by
    rw [Cursor.first?_eq_head?, List.head?_eq_getElem?, ← hpeek, Cursor.peek_eq_getElem?]
    rfl
  refine ⟨v, hfirst, hv, fun _ => ⟨hpending, ?_⟩⟩
  unfold Cursor.atExpansionEnd at hend
  revert hfirst hend
  generalize r.cursor.items = l
  intro hend hfirst
  cases l with
  | nil => cases hfirst
  | cons item l =>
      cases item with
      | value w =>
          cases hfirst
          exact ⟨l, rfl⟩
      | marker k => cases hend

theorem ready_of_not_blank {m : String} (hpeek : r.cursor.peek 0 = some v)
    (hblank : v.isWhitespace = false) (hv : v.hasType .semicolon = false) :
    Ready m r.cursor.items := by
  refine ⟨v, ?_, hv, fun h => ?_⟩
  · rw [Cursor.first?_eq_head?, List.head?_eq_getElem?, ← hpeek, Cursor.peek_eq_getElem?]
    rfl
  · rw [hblank] at h
    cases h

/-! ## Whitespace -/

theorem Cursor.skipBlanks_suffix (items : List Item) (names : List String) (last : Position) :
    (skipBlanks items names last).1 <:+ items := by
  fun_induction skipBlanks items names last with
  | case1 => exact List.suffix_refl _
  | case2 v rest names last _ ih => exact ih.trans (List.suffix_cons _ _)
  | case3 => exact List.suffix_refl _
  | case4 m rest names last _ ih => exact ih.trans (List.suffix_cons _ _)
  | case5 => exact List.suffix_refl _

theorem Cursor.skipBlanks_of_not_blank {items : List Item} (names : List String) (last : Position)
    (h : (Item.first? items).any Value.isWhitespace = false) :
    (skipBlanks items names last).1 = items := by
  cases items with
  | nil => rfl
  | cons item items =>
      cases item with
      | value v =>
          have hv : v.isWhitespace = false := h
          simp [skipBlanks, hv]
      | marker name =>
          have hitems : (Item.first? items).any Value.isWhitespace = false := h
          simp [skipBlanks, hitems]

theorem Kin.first_blank (h : Kin p l l') :
    (Item.first? l').any Value.isWhitespace = (Item.first? l).any Value.isWhitespace := by
  induction h with
  | nil => rfl
  | value => rfl
  | marker _ _ ih => exact ih
  | own _ ih => exact ih
  | group _ hraw _ =>
      obtain ⟨opener, inner, rfl, hopener⟩ := hraw.exists_opener
      exact (hasType_of_opener hopener rfl).trans (hraw.hasType .whitespace).symm

theorem Kin.skipBlanks (h : Kin p l l') (names names' : List String) (last last' : Position) :
    Kin p (Cursor.skipBlanks l names last).1 (Cursor.skipBlanks l' names' last').1 := by
  induction h generalizing names names' last last' with
  | nil => exact .nil
  | @value v l l' h ih =>
      unfold Cursor.skipBlanks
      split
      · exact ih names names' v.start v.start
      · exact .value h
  | @marker name l l' hne h ih =>
      unfold Cursor.skipBlanks
      rw [h.first_blank]
      split
      · exact ih names.tail names'.tail last last'
      · exact .marker hne h
  | @own l l' h ih =>
      -- The second reader has no marker here: it stays where it is if no whitespace follows.
      rw [Cursor.skipBlanks.eq_def (.marker p.mixin :: l)]
      by_cases hblank : (Item.first? l).any Value.isWhitespace = true
      · simp only [hblank, if_true]
        exact ih names.tail names' last last'
      · have hblank' : (Item.first? l').any Value.isWhitespace = false := by
          rw [h.first_blank]
          simpa using hblank
        rw [Cursor.skipBlanks_of_not_blank names' last' hblank']
        simp only [hblank]
        exact .own h
  | @group g ts l l' hgrouping hraw h _ =>
      obtain ⟨opener, inner, rfl, hopener⟩ := hraw.exists_opener
      rw [Cursor.skipBlanks_of_not_blank, Cursor.skipBlanks_of_not_blank]
      · exact .group hgrouping hraw h
      · exact hasType_of_opener hopener rfl
      · exact hraw.hasType .whitespace

theorem Alike.skipWhitespace (h : Alike p r s) :
    Alike p { r with cursor := r.cursor.skipWhitespace }
      { s with cursor := s.cursor.skipWhitespace } := by
  obtain ⟨lead, hlead⟩ := Cursor.skipBlanks_suffix r.cursor.items r.cursor.expansions r.cursor.last
  exact h.drop hlead.symm (h.kin.skipBlanks _ _ _ _) rfl rfl rfl rfl

theorem owned_of_skipWhitespace (h : Owned p.mixin r.cursor.skipWhitespace.items) :
    Owned p.mixin r.cursor.items := by
  obtain ⟨lead, hlead⟩ := Cursor.skipBlanks_suffix r.cursor.items r.cursor.expansions r.cursor.last
  rw [← hlead]
  exact owned_of_append h

theorem Item.blankCount_eq (items : List Item) :
    Item.blankCount items =
      ((items.filterMap Item.value?).takeWhile Value.isWhitespace).length := by
  fun_induction Item.blankCount items with
  | case1 => rfl
  | case2 _ _ ih => simpa [Item.value?, List.filterMap_cons] using ih
  | case3 v rest hblank ih => simp [Item.value?, hblank, ih]
  | case4 v rest hblank => simp [Item.value?, hblank]

/-- The first value that is not whitespace. -/
theorem Cursor.peek_blankOffset (c : Cursor) :
    c.peek c.blankOffset = c.skipWhitespace.peek 0 := by
  rw [Cursor.peek_eq_getElem?, Cursor.peek_eq_getElem?, Cursor.rest_skipWhitespace,
    Cursor.blankOffset, Item.blankCount_eq]
  change c.rest[(c.rest.takeWhile Value.isWhitespace).length]? = _
  conv_lhs => rw [← List.takeWhile_append_dropWhile (p := Value.isWhitespace) (l := c.rest)]
  rw [List.getElem?_append_right (by simp)]
  simp

/-- Both readers are, or are not, at a delimiter behind whitespace. -/
theorem Alike.checkDelim_blankOffset (h : Alike p r s) (text : String) :
    s.cursor.checkDelim s.cursor.blankOffset text = r.cursor.checkDelim r.cursor.blankOffset text := by
  have hcheck := h.skipWhitespace.checkDelim text
  unfold Cursor.checkDelim at hcheck ⊢
  rw [Cursor.peek_blankOffset, Cursor.peek_blankOffset]
  exact hcheck

/-! ## Values put in front, and bindings -/

theorem Alike.splice (h : Alike p r s) (hpending : Pending p.mixin r.cursor.items)
    (hvs : ∀ v ∈ vs, Fits p r.cursor.items v) :
    Alike p { r with cursor := r.cursor.splice vs } { s with cursor := s.cursor.splice vs } where
  kin := h.kin.values vs
  clean := by
    intro v hv
    change v ∈ (r.cursor.splice vs).rest at hv
    rw [Cursor.rest_splice] at hv
    rcases List.mem_append.mp hv with hv | hv
    · exact (hvs v hv).1
    · exact h.clean v hv
  guarded := h.guarded.values_append (fun hown v hv => (hvs v hv).2 hown) hpending
  scopes := h.scopes
  calm := fun hown => h.calm (owned_values_append.mp hown)

theorem Alike.spliceExpansion (h : Alike p r s) {name : String} (hname : name ≠ p.mixin)
    (hvs : ∀ v ∈ vs, Fits p r.cursor.items v) :
    Alike p { r with cursor := r.cursor.spliceExpansion name vs }
      { s with cursor := s.cursor.spliceExpansion name vs } := by
  have hown (hl : Owned p.mixin (.marker name :: r.cursor.items)) :
      Owned p.mixin r.cursor.items := by
    rcases List.mem_cons.mp hl with heq | hl
    · cases heq
      exact (hname rfl).elim
    · exact hl
  refine ⟨(Kin.marker hname h.kin).values vs, ?_, ?_, h.scopes, ?_⟩
  · intro v hv
    change v ∈ (r.cursor.spliceExpansion name vs).rest at hv
    rw [Cursor.rest_spliceExpansion] at hv
    rcases List.mem_append.mp hv with hv | hv
    · exact (hvs v hv).1
    · exact h.clean v hv
  · have hbehind : Guarded p.mixin (.marker name :: r.cursor.items) := h.guarded
    exact hbehind.values_append (fun hl v hv => (hvs v hv).2 (hown hl)) fun _ => hname
  · exact fun hl => h.calm (hown (owned_values_append.mp hl))

/-- The scopes of both readers change in the same way. -/
theorem Alike.withScopes (h : Alike p r s) {a b : Scopes} (hscopes : LikeScopes p a b)
    (hcalm : Owned p.mixin r.cursor.items → ∀ f ∈ a.frames, f.Calm p.mixin) :
    Alike p { r with scopes := a } { s with scopes := b } :=
  ⟨h.kin, h.clean, h.guarded, hscopes, hcalm⟩

theorem Alike.setVariable (h : Alike p r s) (name : String)
    (hvs : ∀ v ∈ vs, Fits p r.cursor.items v) :
    Alike p { r with scopes := r.scopes.setVariable name vs }
      { s with scopes := s.scopes.setVariable name vs } :=
  h.withScopes (h.scopes.setVariable name fun v hv => (hvs v hv).1) fun hown =>
    made_setVariable (h.calm hown) fun v hv => (hvs v hv).2 hown

theorem Alike.setAlias (h : Alike p r s) (name : String)
    (hvs : ∀ v ∈ vs, Fits p r.cursor.items v) :
    Alike p { r with scopes := r.scopes.setAlias name vs }
      { s with scopes := s.scopes.setAlias name vs } :=
  h.withScopes (h.scopes.setAlias name fun v hv => (hvs v hv).1) fun hown =>
    made_setAlias (h.calm hown) fun v hv => (hvs v hv).2 hown

theorem Alike.setMixin (h : Alike p r s) {name : String} (hname : name ≠ p.mixin) {x : Mixin}
    (hclean : x.Made (Token.Clean p.mixin) (·.text ≠ p.mixin))
    (hcalm : Owned p.mixin r.cursor.items → x.Made Token.Calm fun _ => True) :
    Alike p { r with scopes := r.scopes.setMixin name x }
      { s with scopes := s.scopes.setMixin name x } :=
  h.withScopes (h.scopes.setMixin hname hclean) fun hown =>
    made_setMixin (h.calm hown) (hcalm hown)

/-- One more scope around both readers. -/
theorem Alike.push (h : Alike p r s) (names : List String) (isCapture : Bool) :
    Alike p
      { r with scopes := ⟨{ parameters := names, isCapture := isCapture }, r.scopes.frames⟩ }
      { s with scopes := ⟨{ parameters := names, isCapture := isCapture }, s.scopes.frames⟩ } := by
  refine h.withScopes (h.scopes.push names isCapture) ?_
  intro hown f hf
  rcases List.mem_cons.mp hf with rfl | hf
  · exact Scope.made_empty _ _
  · exact h.calm hown f hf

end Alike
end Cascade

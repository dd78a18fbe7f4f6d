import Cascade.Proofs.Grouping

/-!
# Settled definitions

A definition of a variable or of an at-rule alias is made of its name, an operator
and a value, which goes on to a semicolon or a line feed outside all brackets.
The value is settled where nothing in it is replaced after it has been read: it
holds no at-keyword, no dollar sign but those of references, which are replaced as
the value is read, and no further definition.

**Method.**  `endsSettled due ts` checks a value from inside the brackets whose
closers are `due`.  While a value is read, substituted values may close some of
these brackets early, so that the closers a reader still waits for are a sublist
of those that are due.  `InDefinition` says this, and it holds on for each token
that the reader passes.  What is left to read is a run of substituted values, which
are settled, followed by tokens of the source: it is `Tame`.

**Results.**
* `InDefinition.behind`, `InDefinition.close`, `InDefinition.closed`: reading
  inside a definition.
* `SettledSource.suffix`, `SettledSource.front`: where the definitions in a list are
  settled, so are those in what is left of it and in what is cut out of it.
* `SettledSource.inDefinition`: the value of a definition at the front.
* `Tame.behind`, `Tame.opened`, `Tame.closed`, `Tame.splice`: reading and replacing
  values.
* `Tame.settled`: what is read inside a definition is settled.
-/

namespace Cascade

/-! ## Values of definitions -/

/-- What stands behind an operator, if that is the first token but for whitespace. -/
def behindOperator? (isOperator : Token → Bool) (ts : List Token) : Option (List Token) :=
  match ts.dropWhile (·.type == .whitespace) with
  | t :: rest => if isOperator t then some rest else none
  | [] => none

/-- The token makes a definition of the variable before it. -/
def Token.isAssignment (t : Token) : Bool :=
  t.type == .colon || t.isDelim "="

/-- What stands behind the operator of the definition at the front, if there is one. -/
def definitionValue? : List Token → Option (List Token)
  | [] => none
  | t :: ts =>
    if t.isDelim "$" then
      match ts with
      | name :: ts => if name.type = .ident then behindOperator? Token.isAssignment ts else none
      | [] => none
    else if t.type = .atKeyword then
      behindOperator? (·.isDelim "=") ts
    else
      none

/-- The token may stand in a settled value before other tokens: it is no at-keyword, and if it is a
dollar sign then that of a reference. -/
def staysSettled (t : Token) (behind : List Token) : Bool :=
  t.type != .atKeyword &&
    (!t.isDelim "$" ||
      (behind.head?.any (·.type == .ident) && (definitionValue? (t :: behind)).isNone))

theorem type_of_staysSettled {t : Token} {ts : List Token} (h : staysSettled t ts = true) :
    t.type ≠ .atKeyword := by
  unfold staysSettled at h
  simp only [Bool.and_eq_true, bne_iff_ne] at h
  exact h.1

/-- A dollar sign in a settled value is that of a reference. -/
theorem reference_of_staysSettled {t : Token} {ts : List Token} (h : staysSettled t ts = true)
    (hdollar : t.isDelim "$" = true) :
    ts.head?.any (·.type == .ident) = true ∧ definitionValue? (t :: ts) = none := by
  unfold staysSettled at h
  rw [hdollar, Bool.not_true, Bool.false_or] at h
  simp only [Bool.and_eq_true, Option.isNone_iff_eq_none] at h
  exact h.2

/-- The value of a definition is settled, read from inside brackets whose closers are due. -/
def endsSettled (due : List TokenType) : List Token → Bool
  | [] => true
  | t :: ts =>
    (due.isEmpty && Read.endsDefinition t) ||
      (staysSettled t ts && endsSettled (Scan.dueAfter t due) ts)

/-- All definitions in a token list have settled values. -/
def definesSettled : List Token → Bool
  | [] => true
  | t :: ts => (definitionValue? (t :: ts)).all (endsSettled []) && definesSettled ts

/-- The token defines or includes mixins. -/
def Token.isDirective (t : Token) : Bool :=
  t.type == .atKeyword && (Text.foldCase t.text == "mixin" || Text.foldCase t.text == "include")

/-! ## Inside a definition -/

/-- The token ends the list of values that is being read inside a definition: the innermost group that
has not been closed or, outside all groups, the value itself. -/
def endsList : List TokenType → Token → Bool
  | [], t => Read.endsDefinition t
  | closer :: _, t => t.type == closer

/-- The tokens go on with a settled value, and a reader waits for some of the closers that are due. -/
def InDefinition (awaited : List TokenType) (ts : List Token) : Prop :=
  ∃ due, awaited.Sublist due ∧ (∀ closer ∈ due, closer.isCloser = true) ∧ endsSettled due ts = true

section InDefinition

variable {awaited due : List TokenType} {closer : TokenType} {t : Token} {ts : List Token}

theorem isCloser_of_mem_dueAfter (h : ∀ closer ∈ due, closer.isCloser = true) :
    ∀ closer ∈ Scan.dueAfter t due, closer.isCloser = true := by
  intro closer hcloser
  unfold Scan.dueAfter at hcloser
  split at hcloser
  · next opened hopened =>
      rcases List.mem_cons.mp hcloser with rfl | hcloser
      · exact TokenType.isCloser_of_closer? hopened
      · exact h closer hcloser
  · split at hcloser
    · exact h closer (List.mem_of_mem_tail hcloser)
    · exact h closer hcloser

/-- What a token does to the awaited closers, unless it is the next of them. -/
theorem dueAfter_of_not_endsList (hopen : endsList awaited t = false) :
    Scan.dueAfter t awaited = t.type.closer?.toList ++ awaited := by
  unfold Scan.dueAfter
  cases t.type.closer? with
  | some closer => rfl
  | none =>
      cases awaited with
      | nil => rfl
      | cons closer awaited =>
          have hne : closer ≠ t.type := by
            rintro rfl
            simp [endsList] at hopen
          simp [hne]

theorem sublist_dueAfter (h : awaited.Sublist due) (hopen : endsList awaited t = false) :
    (Scan.dueAfter t awaited).Sublist (Scan.dueAfter t due) := by
  rw [dueAfter_of_not_endsList hopen]
  unfold Scan.dueAfter
  cases t.type.closer? with
  | some closer => exact h.cons_cons closer
  | none =>
      by_cases hhead : due.head? = some t.type
      · obtain ⟨rest, rfl⟩ := List.head?_eq_some_iff.mp hhead
        simp only [hhead, if_true, List.tail_cons]
        cases h with
        | cons _ hrest => exact hrest
        | cons_cons _ _ => simp [endsList] at hopen
      · simp only [hhead, if_false]
        exact h

/-- A token inside the value stays settled, and so does what is behind it. -/
theorem InDefinition.behind (h : InDefinition awaited (t :: ts))
    (hopen : endsList awaited t = false) :
    staysSettled t ts = true ∧ InDefinition (t.type.closer?.toList ++ awaited) ts := by
  obtain ⟨due, hsublist, hclosers, hsettled⟩ := h
  have hgoes : (due.isEmpty && Read.endsDefinition t) = false := by
    cases due with
    | cons _ _ => rfl
    | nil =>
        rw [List.sublist_nil.mp hsublist] at hopen
        exact hopen
  rw [endsSettled, hgoes, Bool.false_or, Bool.and_eq_true] at hsettled
  refine ⟨hsettled.1, Scan.dueAfter t due, ?_, isCloser_of_mem_dueAfter hclosers, hsettled.2⟩
  rw [← dueAfter_of_not_endsList hopen]
  exact sublist_dueAfter hsublist hopen

/-- A group may be closed by a substituted value, or by the end of the input. -/
theorem InDefinition.close (h : InDefinition (closer :: awaited) ts) :
    InDefinition awaited ts := by
  obtain ⟨due, hsublist, hclosers, hsettled⟩ := h
  exact ⟨due, (List.sublist_cons_self _ _).trans hsublist, hclosers, hsettled⟩

/-- A group is closed by its closer. -/
theorem InDefinition.closed (h : InDefinition (closer :: awaited) (t :: ts)) (ht : t.type = closer) :
    InDefinition awaited ts := by
  obtain ⟨due, hsublist, hclosers, hsettled⟩ := h
  cases due with
  | nil => cases hsublist
  | cons first due =>
      have hcloser : closer.isCloser = true := hclosers _ (hsublist.subset List.mem_cons_self)
      have hopens : t.type.closer? = none := TokenType.closer?_of_isCloser (ht ▸ hcloser)
      rw [endsSettled, List.isEmpty_cons, Bool.false_and, Bool.false_or, Bool.and_eq_true] at hsettled
      refine ⟨_, ?_, isCloser_of_mem_dueAfter hclosers, hsettled.2⟩
      unfold Scan.dueAfter
      rw [hopens]
      by_cases hfirst : first = t.type
      · simp only [List.head?_cons, hfirst, if_true, List.tail_cons]
        cases hsublist with
        | cons _ hrest => exact (List.sublist_cons_self _ _).trans hrest
        | cons_cons _ hrest => exact hrest
      · have hne : ¬ (some first = some t.type) := by simpa using hfirst
        simp only [List.head?_cons, hne, if_false]
        exact (List.sublist_cons_self _ _).trans hsublist

theorem InDefinition.isCloser (h : InDefinition (closer :: awaited) ts) :
    closer.isCloser = true := by
  obtain ⟨due, hsublist, hclosers, _⟩ := h
  exact hclosers _ (hsublist.subset List.mem_cons_self)

/-- A name does not end a list of values. -/
theorem InDefinition.endsList_ident (h : InDefinition awaited ts) (ht : t.type = .ident) :
    endsList awaited t = false := by
  cases awaited with
  | nil => simp [endsList, Read.endsDefinition, ht]
  | cons closer awaited =>
      have hcloser := h.isCloser
      rw [endsList, ht]
      cases closer <;> simp_all [TokenType.isCloser]

end InDefinition

/-! ## Parts of a list -/

theorem behindOperator?_eq_some {isOperator : Token → Bool} {ts value : List Token} :
    behindOperator? isOperator ts = some value ↔
      ∃ t, ts.dropWhile (·.type == .whitespace) = t :: value ∧ isOperator t = true := by
  unfold behindOperator?
  cases ts.dropWhile (·.type == .whitespace) with
  | nil => simp
  | cons t rest =>
      simp only [Option.ite_none_right_eq_some, Option.some.injEq, List.cons.injEq]
      constructor
      · rintro ⟨ht, rfl⟩
        exact ⟨t, ⟨rfl, rfl⟩, ht⟩
      · rintro ⟨_, ⟨rfl, rfl⟩, ht⟩
        exact ⟨ht, rfl⟩

theorem behindOperator?_append {isOperator : Token → Bool} {ts value : List Token}
    (h : behindOperator? isOperator ts = some value) (us : List Token) :
    behindOperator? isOperator (ts ++ us) = some (value ++ us) := by
  obtain ⟨t, hdrop, ht⟩ := behindOperator?_eq_some.mp h
  refine behindOperator?_eq_some.mpr ⟨t, ?_, ht⟩
  rw [List.dropWhile_append, hdrop]
  rfl

/-- A definition at the front of a list does not depend on what follows its operator. -/
theorem definitionValue?_append {ts value : List Token} (h : definitionValue? ts = some value)
    (us : List Token) :
    definitionValue? (ts ++ us) = some (value ++ us) := by
  cases ts with
  | nil => cases h
  | cons t ts =>
      rw [List.cons_append]
      unfold definitionValue? at h ⊢
      by_cases hdollar : t.isDelim "$" = true
      · cases ts with
        | nil => simp [hdollar] at h
        | cons name ts =>
            by_cases hname : name.type = .ident
            · simp only [hdollar, hname, if_true] at h
              simpa [hdollar, hname] using behindOperator?_append h us
            · simp [hdollar, hname] at h
      · by_cases hkeyword : t.type = .atKeyword
        · simp only [hdollar, hkeyword, if_true] at h
          simpa [hdollar, hkeyword] using behindOperator?_append h us
        · simp [hdollar, hkeyword] at h

variable {t u : Token} {ts us : List Token}

/-- What stays settled does so where the list is cut, unless it is cut before a name. -/
theorem staysSettled_of_append (h : staysSettled t (ts ++ u :: us) = true) (hu : u.type ≠ .ident) :
    staysSettled t ts = true := by
  unfold staysSettled at h ⊢
  simp only [Bool.and_eq_true, Bool.or_eq_true] at h ⊢
  refine ⟨h.1, h.2.imp id ?_⟩
  rintro ⟨hname, hdefines⟩
  cases ts with
  | nil => simp [hu] at hname
  | cons name ts =>
      refine ⟨hname, ?_⟩
      cases hvalue : definitionValue? (t :: name :: ts) with
      | none => rfl
      | some value =>
          have hlonger := definitionValue?_append hvalue (u :: us)
          rw [List.cons_append] at hlonger
          rw [hlonger] at hdefines
          cases hdefines

theorem endsSettled_of_append (hu : u.type ≠ .ident) {due : List TokenType}
    (h : endsSettled due (ts ++ u :: us) = true) :
    endsSettled due ts = true := by
  induction ts generalizing due with
  | nil => rfl
  | cons t ts ih =>
      rw [List.cons_append, endsSettled] at h
      rw [endsSettled]
      simp only [Bool.or_eq_true, Bool.and_eq_true (staysSettled _ _)] at h ⊢
      rcases h with hends | ⟨hstays, hbehind⟩
      · exact .inl hends
      · exact .inr ⟨staysSettled_of_append hstays hu, ih hbehind⟩

theorem definesSettled_of_append (hu : u.type ≠ .ident)
    (h : definesSettled (ts ++ u :: us) = true) :
    definesSettled ts = true := by
  induction ts with
  | nil => rfl
  | cons t ts ih =>
      rw [List.cons_append, definesSettled, Bool.and_eq_true] at h
      rw [definesSettled, Bool.and_eq_true]
      refine ⟨?_, ih h.2⟩
      cases hvalue : definitionValue? (t :: ts) with
      | none => rfl
      | some value =>
          have hlonger := definitionValue?_append hvalue (u :: us)
          rw [List.cons_append] at hlonger
          have hsettled := h.1
          rw [hlonger] at hsettled
          exact endsSettled_of_append hu hsettled

/-- The tokens neither define nor include mixins, and the definitions among them are settled. -/
structure SettledSource (ts : List Token) : Prop where
  directives : ∀ t ∈ ts, t.isDirective = false
  definitions : definesSettled ts = true

theorem SettledSource.nil :
    SettledSource [] :=
  ⟨nofun, rfl⟩

theorem SettledSource.behind (h : SettledSource (t :: ts)) :
    SettledSource ts := by
  have hdefinitions := h.definitions
  rw [definesSettled, Bool.and_eq_true] at hdefinitions
  exact ⟨fun u hu => h.directives u (List.mem_cons_of_mem _ hu), hdefinitions.2⟩

theorem SettledSource.suffix (h : SettledSource ts) (hsuffix : us <:+ ts) :
    SettledSource us := by
  induction ts with
  | nil =>
      rw [List.suffix_nil.mp hsuffix]
      exact .nil
  | cons t ts ih =>
      rcases List.suffix_cons_iff.mp hsuffix with rfl | hbehind
      · exact h
      · exact ih h.behind hbehind

theorem SettledSource.front (h : SettledSource (ts ++ u :: us)) (hu : u.type ≠ .ident) :
    SettledSource ts :=
  ⟨fun t ht => h.directives t (List.mem_append_left _ ht), definesSettled_of_append hu h.definitions⟩

/-- The value of a definition at the front is settled. -/
theorem SettledSource.inDefinition (h : SettledSource ts) {value : List Token}
    (hvalue : definitionValue? ts = some value) :
    InDefinition [] value := by
  cases ts with
  | nil => cases hvalue
  | cons t ts =>
      have hdefinitions := h.definitions
      rw [definesSettled, hvalue, Bool.and_eq_true] at hdefinitions
      exact ⟨[], .slnil, nofun, hdefinitions.1⟩

/-! ## Settled values -/

/-- Nothing is replaced when the value is read once more. -/
inductive Value.Settled : Value → Prop
  | token {t : Token} (opens : t.type.closer? = none) (dollar : t.isDelim "$" = false)
      (keyword : t.type = .atKeyword → Text.foldCase t.text = "media") : Settled (.token t)
  | block {opener : Token} {contents : List Value} {closer : Option Token} :
      (∀ v ∈ contents, Settled v) → Settled (.block opener contents closer)
  | call {name : Token} {args : List (List Value)} {commas : List Token} {closer : Option Token} :
      Settled (.call name args commas closer)

namespace Substitution

/-! ## Tame lists

A place is `none` outside of definitions, and inside one it holds the closers that are awaited. -/

/-- Tokens of the source that are read at a place. -/
structure SourceAt (place : Option (List TokenType)) (ts : List Token) : Prop where
  source : SettledSource ts
  definition : ∀ awaited ∈ place, InDefinition awaited ts

/-- Settled values before tokens of the source. -/
def Tame (place : Option (List TokenType)) (vs : List Value) : Prop :=
  ∃ spliced ts, vs = spliced ++ ts.map .token ∧ (∀ v ∈ spliced, v.Settled) ∧ SourceAt place ts

/-- One more group has been opened at a place. -/
def inside (closer : TokenType) (place : Option (List TokenType)) : Option (List TokenType) :=
  place.map (closer :: ·)

/-- The value does not end the list of values that is being read at a place. -/
def GoesOn (place : Option (List TokenType)) (v : Value) : Prop :=
  ∀ awaited ∈ place, ∀ t, v = .token t → endsList awaited t = false

section Tame

variable {place : Option (List TokenType)} {closer : TokenType} {t : Token} {ts : List Token}
  {v : Value} {vs : List Value}

theorem SourceAt.behind (h : SourceAt place (t :: ts)) (hopen : GoesOn place (.token t))
    (htype : t.type.closer? = none) :
    SourceAt place ts := by
  refine ⟨h.source.behind, ?_⟩
  intro awaited hawaited
  have hbehind := ((h.definition awaited hawaited).behind (hopen awaited hawaited t rfl)).2
  rwa [htype] at hbehind

theorem SourceAt.opened (h : SourceAt place (t :: ts)) (hopen : GoesOn place (.token t))
    (htype : t.type.closer? = some closer) :
    SourceAt (inside closer place) ts := by
  refine ⟨h.source.behind, ?_⟩
  intro awaited hawaited
  obtain ⟨outer, houter, rfl⟩ := Option.map_eq_some_iff.mp hawaited
  have hbehind := ((h.definition outer houter).behind (hopen outer houter t rfl)).2
  rwa [htype] at hbehind

theorem SourceAt.close (h : SourceAt (inside closer place) ts) :
    SourceAt place ts :=
  ⟨h.source, fun awaited hawaited =>
    (h.definition _ (Option.map_eq_some_iff.mpr ⟨awaited, hawaited, rfl⟩)).close⟩

theorem SourceAt.closed (h : SourceAt (inside closer place) (t :: ts)) (ht : t.type = closer) :
    SourceAt place ts :=
  ⟨h.source.behind, fun awaited hawaited =>
    (h.definition _ (Option.map_eq_some_iff.mpr ⟨awaited, hawaited, rfl⟩)).closed ht⟩

theorem Tame.of_settled (h : ∀ v ∈ vs, v.Settled) :
    Tame none vs :=
  ⟨vs, [], by simp, h, .nil, nofun⟩

theorem Tame.of_source (h : SourceAt place ts) :
    Tame place (ts.map .token) :=
  ⟨[], ts, rfl, nofun, h⟩

/-- The front value has been substituted, or it is a token of the source. -/
theorem Tame.cases (h : Tame place (v :: vs)) :
    (v.Settled ∧ Tame place vs) ∨
      ∃ t ts, v = .token t ∧ vs = ts.map .token ∧ SourceAt place (t :: ts) := by
  obtain ⟨spliced, ts, heq, hspliced, hsource⟩ := h
  cases spliced with
  | nil =>
      obtain ⟨t, ts', rfl, rfl, rfl⟩ := List.map_eq_cons_iff.mp heq.symm
      exact .inr ⟨t, ts', rfl, rfl, hsource⟩
  | cons u spliced =>
      obtain ⟨rfl, rfl⟩ := List.cons.inj heq
      refine .inl ⟨hspliced v List.mem_cons_self, spliced, ts, rfl, ?_, hsource⟩
      exact fun u hu => hspliced u (List.mem_cons_of_mem _ hu)

/-- A value that opens no group has been read. -/
theorem Tame.behind (h : Tame place (v :: vs)) (hopen : GoesOn place v)
    (hsingle : ∀ t, v = .token t → t.type.closer? = none) :
    Tame place vs := by
  rcases h.cases with ⟨_, hvs⟩ | ⟨t, ts, rfl, rfl, hsource⟩
  · exact hvs
  · exact .of_source (hsource.behind hopen (hsingle t rfl))

/-- A value has been read outside of definitions. -/
theorem Tame.tail (h : Tame none (v :: vs)) :
    Tame none vs := by
  rcases h.cases with ⟨_, hvs⟩ | ⟨t, ts, rfl, rfl, hsource⟩
  · exact hvs
  · exact .of_source ⟨hsource.source.behind, nofun⟩

theorem Tame.opened (h : Tame place (.token t :: vs)) (hopen : GoesOn place (.token t))
    (htype : t.type.closer? = some closer) :
    Tame (inside closer place) vs := by
  rcases h.cases with ⟨hsettled, _⟩ | ⟨u, ts, hu, rfl, hsource⟩
  · cases hsettled with
    | token hopens => simp [hopens] at htype
  · cases hu
    exact .of_source (hsource.opened hopen htype)

theorem Tame.close (h : Tame (inside closer place) vs) :
    Tame place vs := by
  obtain ⟨spliced, ts, heq, hspliced, hsource⟩ := h
  exact ⟨spliced, ts, heq, hspliced, hsource.close⟩

theorem Tame.closed (h : Tame (inside closer place) (v :: vs)) (hv : v.hasType closer = true) :
    Tame place vs := by
  rcases h.cases with ⟨_, hvs⟩ | ⟨t, ts, rfl, rfl, hsource⟩
  · exact hvs.close
  · exact .of_source (hsource.closed (by simpa [Value.hasType] using hv))

theorem Tame.leave (h : Tame place vs) :
    Tame none vs := by
  obtain ⟨spliced, ts, heq, hspliced, hsource⟩ := h
  exact ⟨spliced, ts, heq, hspliced, hsource.source, nofun⟩

theorem Tame.splice (h : Tame place vs) {spliced : List Value} (hspliced : ∀ v ∈ spliced, v.Settled) :
    Tame place (spliced ++ vs) := by
  obtain ⟨before, ts, rfl, hbefore, hsource⟩ := h
  refine ⟨spliced ++ before, ts, by simp, ?_, hsource⟩
  intro v hv
  rcases List.mem_append.mp hv with hv | hv
  · exact hspliced v hv
  · exact hbefore v hv

theorem Tame.dropWhile (h : Tame none vs) (p : Value → Bool) :
    Tame none (vs.dropWhile p) := by
  induction vs with
  | nil => exact h
  | cons v vs ih =>
      rw [List.dropWhile_cons]
      split
      · exact ih h.tail
      · exact h

/-- A dollar sign at the front is one of the source. -/
theorem Tame.source_of_dollar (h : Tame place (v :: vs)) (hv : v.isDelim "$" = true) :
    ∃ t ts, v = .token t ∧ vs = ts.map .token ∧ SourceAt place (t :: ts) := by
  rcases h.cases with ⟨hsettled, _⟩ | hsource
  · cases hsettled with
    | token _ hdollar => simp [Value.isDelim, hdollar] at hv
    | block _ => cases hv
    | call => cases hv
  · exact hsource

/-- The front value of a group or of a definition is settled, unless it opens a group or is the start
of a reference. -/
theorem Tame.settled (h : Tame place (v :: vs)) (hopen : GoesOn place v)
    (hsingle : ∀ t, v = .token t → t.type.closer? = none)
    (hvariable : (v.isDelim "$" && vs.head?.any (·.hasType .ident)) = false)
    (hplace : place.isSome = true) :
    v.Settled := by
  rcases h.cases with ⟨hsettled, _⟩ | ⟨t, ts, rfl, rfl, hsource⟩
  · exact hsettled
  · obtain ⟨awaited, hawaited⟩ := Option.isSome_iff_exists.mp hplace
    have hstays := ((hsource.definition awaited hawaited).behind (hopen awaited hawaited t rfl)).1
    have hdollar : t.isDelim "$" = false := by
      by_contra hdollar
      have hident := (reference_of_staysSettled hstays (by simpa using hdollar)).1
      have hmap : (ts.map Value.token).head?.any (·.hasType .ident) =
          ts.head?.any (·.type == .ident) := by
        cases ts with
        | nil => rfl
        | cons u ts => rfl
      rw [hmap, hident, Bool.and_true] at hvariable
      exact hdollar hvariable
    exact .token (hsingle t rfl) hdollar fun htype => (type_of_staysSettled hstays htype).elim

end Tame

end Substitution
end Cascade

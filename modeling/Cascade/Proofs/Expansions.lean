import Cascade.Proofs.Readings

/-!
# Markers and the mixins being expanded

A cursor has two records of the mixins that are being expanded: the markers among the
items left to read, and the list of their names.  The two always agree, the number of
names never exceeds the limit, and what a cursor hands out is never a marker.

**Method.**  What each step on a cursor keeps is kept by each step of reading, for the
cursor in use and for those that wait, and so wherever steps lead.  They lead wherever a
computation comes by (`Proofs.Readings`): what it does in between, inside of brackets and on
the cursors of its own that they start, is covered as well as where it ends.

**Results.**
* `Cursor.Stacked.next`, `Cursor.Stacked.skipWhitespace`, `Cursor.Stacked.spliceExpansion`:
  what a step on a cursor keeps.
* `Reading.Stacked.step`, `Reading.stacked_of_reaches`: what a step of reading keeps, and so
  any number of them.
* `Reading.expansions_stacked`: the markers of all cursors in all readings that parsing comes by.
-/

namespace Cascade

/-! ## Markers -/

/-- The mixin whose body ends at an item. -/
def Item.marker? : Item → Option String
  | .value _ => none
  | .marker mixin => some mixin

namespace Cursor

variable {limit : Nat} {c : Cursor}

/-- The names of the markers from the front are those of the mixins being expanded from the most
recent on, and there are not too many of them. -/
structure Stacked (limit : Nat) (c : Cursor) : Prop where
  names : c.items.filterMap Item.marker? = c.expansions
  depth : c.depth ≤ limit

theorem filterMap_marker?_values (vs : List Value) :
    (vs.map Item.value).filterMap Item.marker? = [] := by
  simp [List.filterMap_map, Function.comp_def, Item.marker?]

/-- The markers that are dropped at the front take their own names from the stack. -/
theorem exists_of_dropMarkers {items : List Item} {names : List String}
    (h : items.filterMap Item.marker? = names) :
    ∃ dropped : List String,
      items = dropped.map .marker ++ (dropMarkers items names).1 ∧
      names = dropped ++ (dropMarkers items names).2 ∧
      (dropMarkers items names).1.filterMap Item.marker? = (dropMarkers items names).2 := by
  fun_induction dropMarkers items names with
  | case1 m rest names ih =>
      obtain rfl : m :: rest.filterMap Item.marker? = names := h
      obtain ⟨dropped, hitems, hnames, hleft⟩ := ih rfl
      exact ⟨m :: dropped, congrArg _ hitems, congrArg _ hnames, hleft⟩
  | case2 items names => exact ⟨[], rfl, rfl, h⟩

/-- So do those that are passed with the whitespace at the front. -/
theorem exists_of_skipBlanks {items : List Item} {names : List String} (last : Position)
    (h : items.filterMap Item.marker? = names) :
    ∃ passed : List Item,
      items = passed ++ (skipBlanks items names last).1 ∧
      names = passed.filterMap Item.marker? ++ (skipBlanks items names last).2.1 ∧
      (skipBlanks items names last).1.filterMap Item.marker? =
        (skipBlanks items names last).2.1 := by
  fun_induction skipBlanks items names last with
  | case1 => exact ⟨[], rfl, rfl, h⟩
  | case2 v rest names last hblank ih =>
      obtain ⟨passed, hitems, hnames, hleft⟩ := ih h
      exact ⟨.value v :: passed, congrArg _ hitems, hnames, hleft⟩
  | case3 => exact ⟨[], rfl, rfl, h⟩
  | case4 m rest names last hblank ih =>
      obtain rfl : m :: rest.filterMap Item.marker? = names := h
      obtain ⟨passed, hitems, hnames, hleft⟩ := ih rfl
      exact ⟨.marker m :: passed, congrArg _ hitems, congrArg _ hnames, hleft⟩
  | case5 => exact ⟨[], rfl, rfl, h⟩

/-! ## Steps on a cursor -/

theorem stacked_ofValues {base : Nat} (vs : List Value) (h : base ≤ limit) :
    Stacked limit (ofValues vs base) :=
  ⟨filterMap_marker?_values vs, h⟩

theorem stacked_ofTokens (ts : List Token) :
    Stacked limit (ofTokens ts) := by
  have hvalues : Stacked limit (ofValues (valuesOf ts) 0) := stacked_ofValues _ (Nat.zero_le limit)
  unfold ofTokens
  dsimp only
  split
  · exact ⟨hvalues.names, hvalues.depth⟩
  · exact hvalues

/-- Fewer names are no deeper. -/
theorem Stacked.of_suffix {d : Cursor} (h : Stacked limit c) {dropped : List String}
    (hbase : d.baseDepth = c.baseDepth) (hnames : c.expansions = dropped ++ d.expansions)
    (hleft : d.items.filterMap Item.marker? = d.expansions) :
    Stacked limit d := by
  refine ⟨hleft, ?_⟩
  have hdepth : c.baseDepth + c.expansions.length ≤ limit := h.depth
  have hfewer := congrArg List.length hnames
  rw [List.length_append] at hfewer
  change d.baseDepth + d.expansions.length ≤ limit
  omega

/-- The value that is read has the marker of no mixin, and the markers before it are dropped. -/
theorem Stacked.next (h : Stacked limit c) :
    Stacked limit c.next.2 := by
  obtain ⟨dropped, -, hnames, hleft⟩ := exists_of_dropMarkers h.names
  unfold Cursor.next
  revert hnames hleft
  rcases dropMarkers c.items c.expansions with ⟨_ | ⟨v | m, rest⟩, names⟩
  · exact fun hnames hleft => h.of_suffix rfl hnames hleft
  · exact fun hnames hleft => h.of_suffix rfl hnames hleft
  · exact fun hnames hleft => h.of_suffix rfl hnames hleft

theorem Stacked.skipWhitespace (h : Stacked limit c) :
    Stacked limit c.skipWhitespace := by
  obtain ⟨passed, -, hnames, hleft⟩ := exists_of_skipBlanks c.last h.names
  exact h.of_suffix rfl hnames hleft

theorem Stacked.splice (h : Stacked limit c) (vs : List Value) :
    Stacked limit (c.splice vs) := by
  refine ⟨?_, h.depth⟩
  have hitems : (c.splice vs).items = vs.map .value ++ c.items := rfl
  rw [hitems, List.filterMap_append, filterMap_marker?_values]
  exact h.names

/-- A body is put in front with its own marker and its own name. -/
theorem Stacked.spliceExpansion (h : Stacked limit c) (hroom : c.depth < limit) (mixin : String)
    (vs : List Value) :
    Stacked limit (c.spliceExpansion mixin vs) := by
  constructor
  · have hitems : (c.spliceExpansion mixin vs).items = vs.map .value ++ .marker mixin :: c.items := rfl
    rw [hitems, List.filterMap_append, filterMap_marker?_values]
    exact congrArg (mixin :: ·) h.names
  · change c.baseDepth + (c.expansions.length + 1) ≤ limit
    change c.baseDepth + c.expansions.length < limit at hroom
    omega

/-! ## What a cursor hands out -/

theorem mem_items_of_mem_rest {v : Value} (h : v ∈ c.rest) :
    Item.value v ∈ c.items := by
  obtain ⟨item, hitem, hv⟩ := List.mem_filterMap.mp h
  cases item with
  | value u =>
      cases hv
      exact hitem
  | marker m => cases hv

/-- A value that is looked at stands among the items. -/
theorem mem_items_of_peek {n : Nat} {v : Value} (h : c.peek n = some v) :
    Item.value v ∈ c.items := by
  rw [peek_eq_getElem?] at h
  exact mem_items_of_mem_rest (List.mem_of_getElem? h)

/-- A value that is read stands among the items. -/
theorem mem_items_of_next {v : Value} (h : c.next.1 = some v) :
    Item.value v ∈ c.items := by
  rw [next_fst] at h
  exact mem_items_of_mem_rest (List.mem_of_head? h)

end Cursor

/-- What is left has been there before. -/
theorem Cursor.Forth.rest_suffix {c d : Cursor} (h : c.Forth d) :
    d.rest <:+ c.rest := by
  induction h with
  | refl => exact List.suffix_rfl
  | next _ ih =>
      rw [rest_next]
      exact (List.tail_suffix _).trans ih
  | skipWhitespace _ ih =>
      rw [rest_skipWhitespace]
      exact (List.dropWhile_suffix _).trans ih

namespace Scan

/-- The contents of a block that is read as it stands are values from the rest. -/
theorem mem_of_rawContents {opener : Token} {closer : TokenType} {S : List Value} {n : Nat}
    {due : List TokenType} {read : List Value} {c d : Cursor} {b : Block}
    (hread : ∀ v ∈ read, v ∈ S) (hrest : ∀ v ∈ c.rest, v ∈ S)
    (h : rawContents opener closer n due read c = .ok b d) :
    ∀ v ∈ b.contents, v ∈ S := by
  have hend : ∀ v ∈ read.reverse, v ∈ S := fun v hv => hread v (List.mem_reverse.mp hv)
  induction n generalizing due read c with
  | zero =>
      cases h
      exact hend
  | succ n ih =>
      have hrun {f : Option Value → Scan Block} : (next >>= f) c = f c.next.1 c.next.2 := rfl
      rw [rawContents, hrun] at h
      cases hfront : c.next.1 with
      | none =>
          rw [hfront] at h
          cases h
          exact hend
      | some v =>
          have hv : v ∈ S := hrest v (List.mem_of_head? (c.next_fst ▸ hfront))
          have hmore : ∀ u ∈ v :: read, u ∈ S := List.forall_mem_cons.mpr ⟨hv, hread⟩
          have htail : ∀ u ∈ c.next.2.rest, u ∈ S := by
            rw [Cursor.rest_next]
            exact fun u hu => hrest u (List.mem_of_mem_tail hu)
          have hmoreEnd : ∀ u ∈ (v :: read).reverse, u ∈ S :=
            fun u hu => hmore u (List.mem_reverse.mp hu)
          rw [hfront] at h
          cases v with
          | token t =>
              by_cases hclose : due = [] ∧ t.type = closer
              · simp only [hclose, and_self, if_true] at h
                cases h
                exact hend
              · simp only [hclose, if_false] at h
                exact ih hmore htail h hmoreEnd
          | block | call | reference => exact ih hmore htail h hmoreEnd

/-- So a block that is read as it stands holds values from the items. -/
theorem mem_items_of_rawBlock {c d : Cursor} {b : Block} (h : rawBlock c = .ok b d) :
    ∀ v ∈ b.contents, Item.value v ∈ c.items := by
  have hopener := composed_opener.forth c
  change EStateM.bind opener _ c = _ at h
  unfold EStateM.bind at h
  cases hrun : opener c with
  | error e s =>
      rw [hrun] at h
      cases h
  | ok bracket s =>
      rw [hrun] at h
      rw [after_ok hrun] at hopener
      have hs : ∀ v ∈ s.rest, v ∈ c.rest := fun v hv => hopener.rest_suffix.subset hv
      intro v hv
      exact Cursor.mem_items_of_mem_rest (mem_of_rawContents (List.forall_mem_nil _) hs h v hv)

end Scan

/-! ## Readings -/

namespace Reading

/-- The limits stand, and all cursors keep them. -/
structure Stacked (l : Limits) (s : Reading) : Prop where
  limits : s.reader.limits = l
  cursors : ∀ c ∈ s.cursors, c.Stacked l.includeDepth

variable {l : Limits} {s t : Reading}

theorem stacked_ofTokens (ts : List Token) (l : Limits) :
    Stacked l (ofTokens ts l) :=
  ⟨rfl, List.forall_mem_singleton.mpr (Cursor.stacked_ofTokens ts)⟩

/-- Every step keeps the correspondence in every cursor. -/
theorem Stacked.step (h : Stacked l s) (hstep : Step s t) :
    Stacked l t := by
  obtain ⟨hlimits, hcursors⟩ := h
  obtain ⟨hfront, hwaiting⟩ := List.forall_mem_cons.mp hcursors
  cases hstep with
  | next r w => exact ⟨hlimits, List.forall_mem_cons.mpr ⟨hfront.next, hwaiting⟩⟩
  | skipWhitespace r w =>
      exact ⟨hlimits, List.forall_mem_cons.mpr ⟨hfront.skipWhitespace, hwaiting⟩⟩
  | splice r w vs => exact ⟨hlimits, List.forall_mem_cons.mpr ⟨hfront.splice vs, hwaiting⟩⟩
  | expand w mixin vs hroom hcursor hsame =>
      have hroom : _ < l.includeDepth := hlimits ▸ hroom
      have hexpanded := hfront.spliceExpansion hroom mixin vs
      exact ⟨hsame.trans hlimits, List.forall_mem_cons.mpr ⟨hcursor ▸ hexpanded, hwaiting⟩⟩
  | aside w hcursor hsame =>
      exact ⟨hsame.trans hlimits, List.forall_mem_cons.mpr ⟨hcursor ▸ hfront, hwaiting⟩⟩
  | enter w vs hbase =>
      have hinside := Cursor.stacked_ofValues vs (Nat.le_trans hbase hfront.depth)
      exact ⟨hlimits, List.forall_mem_cons.mpr ⟨hinside, hcursors⟩⟩
  | leave r c w => exact ⟨hlimits, hwaiting⟩

theorem stacked_of_reaches (h : Stacked l s) (hreaches : Reaches s t) :
    Stacked l t := by
  induction hreaches with
  | refl => exact h
  | tail _ hstep ih => exact ih.step hstep

/-! ## All readings -/

/-- Parsing a token list comes by the reading: by operations one after the other, each of them from
where parsing has come to, and in each of them by whatever it comes by. -/
inductive Reachable (ts : List Token) (limits : Limits) : Reading → Prop
  | start : Reachable ts limits (ofTokens ts limits)
  | along {s t : Reading} (op : Read.Operation) (budget : Nat) :
      Reachable ts limits s → (op.perform budget).ComesBy s t → Reachable ts limits t

theorem Reachable.reaches {ts : List Token} {limits : Limits} (h : Reachable ts limits s) :
    Reaches (ofTokens ts limits) s := by
  induction h with
  | start => exact .refl
  | along op budget _ hcomes ih => exact ih.trans hcomes.reaches

/-- Wherever parsing a token list comes by, in the cursor in use and in those that wait: the names of
the markers in the items left to read, from front to back, are those of the mixins being expanded,
from the most recent on; so the markers that are dropped at the front, also together with whitespace,
take exactly their own names, and none is met when no name is left.  There are never more names, here
and around, than the limit allows.  What the cursor shows or hands out, one by one or as the contents
of a block, are values among its items; a marker is no value, so no value that is bound, captured or
put in a tree holds one.  From there every parsing operation, with any budget, takes a path of steps
on cursors, and each reading on the path is one that parsing comes by. -/
theorem expansions_stacked {ts : List Token} {limits : Limits} {s : Reading}
    (h : Reachable ts limits s) :
    (∀ c ∈ s.cursors,
      c.items.filterMap Item.marker? = c.expansions ∧
      (∃ dropped : List String,
        c.items = dropped.map .marker ++ (Cursor.dropMarkers c.items c.expansions).1 ∧
        c.expansions = dropped ++ (Cursor.dropMarkers c.items c.expansions).2) ∧
      (∃ passed : List Item, c.items = passed ++ c.skipWhitespace.items ∧
        c.expansions = passed.filterMap Item.marker? ++ c.skipWhitespace.expansions) ∧
      c.depth ≤ limits.includeDepth ∧
      (∀ n v, c.peek n = some v → Item.value v ∈ c.items) ∧
      (∀ v, c.next.1 = some v → Item.value v ∈ c.items) ∧
      ∀ b d, Scan.rawBlock c = .ok b d → ∀ v ∈ b.contents, Item.value v ∈ c.items) ∧
    ∀ (op : Read.Operation) (budget : Nat),
      Relation.ReflTransGen (fun t u => Step t u ∧ Reachable ts limits u) s
        (s.behind (op.perform budget)) := by
  have hstacked := stacked_of_reaches (stacked_ofTokens ts limits) h.reaches
  refine ⟨fun c hc => ?_, fun op budget => ?_⟩
  · have hcursor := hstacked.cursors c hc
    obtain ⟨dropped, hitems, hnames, -⟩ := Cursor.exists_of_dropMarkers hcursor.names
    obtain ⟨passed, hpassed, htaken, -⟩ := Cursor.exists_of_skipBlanks c.last hcursor.names
    exact ⟨hcursor.names, ⟨dropped, hitems, hnames⟩, ⟨passed, hpassed, htaken⟩, hcursor.depth,
      fun _ _ => Cursor.mem_items_of_peek, fun _ => Cursor.mem_items_of_next,
      fun _ _ => Scan.mem_items_of_rawBlock⟩
  · have hpath := (Read.composed_perform budget op).path s
    exact Relation.ReflTransGen.mono
      (fun _ _ hstep => ⟨hstep.1, .along op budget h hstep.2⟩) _ _ hpath

/-- A mixin and an inclusion of it. -/
def inclusion : List Token :=
  tokenize "@mixin m\x7ba:b\x7d@include m;c\x7b\x7d"

/-- The reading behind both statements. -/
def behindInclusion : Reading :=
  (behind (Read.Operation.atRule.perform 20) (ofTokens inclusion {})).behind
    (Read.Operation.atRule.perform 20)

/-- The block of a style rule without contents. -/
def emptyBlock : Block :=
  ⟨⟨.openBrace, "\x7b", .none, .none⟩, [], none⟩

/-- The reading in the block, which is read by a cursor of its own. -/
def insideBlock : Reading :=
  ⟨{ behindInclusion.reader with
      cursor := .ofValues emptyBlock.contents behindInclusion.reader.cursor.depth },
    [behindInclusion.reader.cursor]⟩

theorem reachable_insideBlock :
    Reachable inclusion {} insideBlock := by
  have hperform (s : Reading) (op : Read.Operation) (budget : Nat) (h : Reachable inclusion {} s) :
      Reachable inclusion {} (s.behind (op.perform budget)) :=
    .along op budget h (.finish s (Read.composed_perform budget op))
  have hbehind : Reachable inclusion {} behindInclusion :=
    hperform _ .atRule 20 (hperform _ .atRule 20 .start)
  refine .along (.styleBlock emptyBlock) 1 hbehind (.first ?_)
  rw [Read.styleBlock]
  exact .within _ rfl (.start _ _)

/-- In the block no mixin is expanded, but its cursor counts the one that is expanded around it, whose
marker the cursor that waits has behind the body. -/
theorem expansions_stacked_insideBlock :
    Reachable inclusion {} insideBlock ∧
      insideBlock.reader.cursor.items.filterMap Item.marker? = [] ∧
      insideBlock.reader.cursor.depth = 1 ∧
      insideBlock.waiting.map Cursor.expansions = [["m"]] ∧
      insideBlock.waiting.map (·.items.filterMap Item.marker?) = [["m"]] := by
  have hnames : insideBlock.waiting.map Cursor.expansions = [["m"]] := by decide +kernel
  have hdepth : insideBlock.reader.cursor.depth = 1 := by decide +kernel
  obtain ⟨hcursors, -⟩ := expansions_stacked reachable_insideBlock
  have hinside := (hcursors _ List.mem_cons_self).1
  have haround := (hcursors _ (List.mem_cons_of_mem _ List.mem_cons_self)).1
  refine ⟨reachable_insideBlock, hinside, hdepth, hnames, ?_⟩
  rw [← hnames]
  exact congrArg (fun names => [names]) haround

end Reading
end Cascade

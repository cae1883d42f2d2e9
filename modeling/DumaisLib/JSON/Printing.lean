import DumaisLib.JSON.Documents
import DumaisLib.JSON.Reordering

/-!
# Printed documents are JSON

Names are printed as they are, and values with a few of the escapes that they
may need.  The text of a tree is valid, and read as the same tree, exactly when
that is enough.
-/

namespace DumaisLib.JSON

open DumaisLib.JSON.Parser Rfc8259

/-! ## What is built and what is read -/

/--
The tree after the calls, each on the node that a path leads to.  Members are listed
in the order in which they were added, which need not be that of the printer.
-/
def build (calls : List (Path × Addition)) : Node :=
  calls.foldl (fun node call => node.mapBelow (Node.add call.2) call.1) (.Object [])

/-- Objects, lists, strings and booleans. -/
def Addition.OfTexts : Addition → Prop
  | .addObject _ => True
  | .addList _ => True
  | .addValue (.string _) _ => True
  | .addValue (.bool _) _ => True
  | .addValue _ _ => False

def boolText (value : Bool) : Text :=
  if value then "true".toList else "false".toList

/-- A document with the same names, strings and booleans, in whatever order its members are. -/
inductive Denotes : Json → Node → Prop where
  | object {members members' : List (List Letter × Json)} {mMembers : List (Text × Node)} :
      members'.Perm members →
      members'.length = mMembers.length →
      (∀ pair ∈ members'.zip mMembers, meaning pair.1.1 = units pair.2.1) →
      (∀ pair ∈ members'.zip mMembers, Denotes pair.1.2 pair.2.2) →
      Denotes (.object members) (.Object mMembers)
  | list {elements : List Json} {mMembers : List Node} : elements.length = mMembers.length →
      (∀ pair ∈ elements.zip mMembers, Denotes pair.1 pair.2) →
      Denotes (.array elements) (.List mMembers)
  | string {letters mValue} : meaning letters = units mValue →
      Denotes (.string letters) (.Value mValue .String)
  | bool {value} : Denotes (.bool value) (.Value (boolText value) .Bool)

/-- The text is valid, and whoever reads it finds the tree. -/
def IsReadAs (text : Text) (node : Node) : Prop :=
  (∃ json : Json, json.WrittenAs text) ∧ ∀ json : Json, json.WrittenAs text → Denotes json node

/-- Names without quotes, backslashes and control characters. -/
def CleanName (name : Text) : Prop :=
  ∀ char ∈ name, IsPlain char

/-- Strings without control characters other than those that are escaped. -/
def CleanString (mValue : Text) : Prop :=
  ∀ char ∈ mValue, 32 ≤ char.toNat ∨ char = '\n' ∨ char = '\r' ∨ char = '\t'

/-- All names and strings of the tree are clean. -/
inductive Node.Clean : Node → Prop where
  | object {mMembers} : (∀ member ∈ mMembers, CleanName member.1) →
      (∀ member ∈ mMembers, member.2.Clean) → Node.Clean (.Object mMembers)
  | list {mMembers} : (∀ child ∈ mMembers, child.Clean) → Node.Clean (.List mMembers)
  | string {mValue} : CleanString mValue → Node.Clean (.Value mValue .String)
  | bool {mValue} : Node.Clean (.Value mValue .Bool)

/-! ## Trees of texts -/

/-- Trees of objects, lists, strings and booleans. -/
inductive Node.OfTexts : Node → Prop where
  | object {mMembers} : (∀ member ∈ mMembers, member.2.OfTexts) → Node.OfTexts (.Object mMembers)
  | list {mMembers} : (∀ child ∈ mMembers, child.OfTexts) → Node.OfTexts (.List mMembers)
  | string {mValue} : Node.OfTexts (.Value mValue .String)
  | bool {value} : Node.OfTexts (.Value (boolText value) .Bool)

theorem Addition.OfTexts.node {addition : Addition} (hofTexts : addition.OfTexts) :
    addition.node.OfTexts := by
  cases addition with
  | addObject name => exact .object fun _ hmem => absurd hmem List.not_mem_nil
  | addList name => exact .list fun _ hmem => absurd hmem List.not_mem_nil
  | addValue val name =>
      cases val with
      | string val => exact .string
      | bool val => exact .bool
      | uint val => exact hofTexts.elim
      | int val => exact hofTexts.elim
      | double printed => exact hofTexts.elim

theorem Node.OfTexts.add {node : Node} (hnode : node.OfTexts) {addition : Addition}
    (haddition : addition.OfTexts) : (node.add addition).OfTexts := by
  cases hnode with
  | object hchildren => exact .object (forall_mem_assign hchildren haddition.node)
  | list hchildren => exact .list (forall_mem_append_singleton hchildren haddition.node)
  | string => exact .string
  | bool => exact .bool

theorem Node.OfTexts.mapChild {change : Node → Node} {node : Node} (hnode : node.OfTexts)
    (hchange : ∀ child : Node, child.OfTexts → (change child).OfTexts) (index : Index) :
    (node.mapChild change index).OfTexts := by
  cases hnode with
  | object hchildren =>
      cases index with
      | key key =>
          refine .object (forall_mem_mapKey hchildren fun child hmember => ?_)
          exact hchange child (hchildren _ hmember)
      | index i => exact .object hchildren
  | list hchildren =>
      cases index with
      | key key => exact .list hchildren
      | index i =>
          refine .list (forall_mem_modify hchildren fun child hget => ?_)
          exact hchange child (hchildren child (List.mem_of_getElem? hget))
  | string => exact .string
  | bool => exact .bool

theorem Node.OfTexts.mapBelow {change : Node → Node}
    (hchange : ∀ child : Node, child.OfTexts → (change child).OfTexts) (path : Path) {node : Node}
    (hnode : node.OfTexts) : (node.mapBelow change path).OfTexts := by
  induction path generalizing node with
  | nil => exact hchange node hnode
  | cons index path ih => exact hnode.mapChild (fun child hchild => ih hchild) index

theorem ofTexts_build {calls : List (Path × Addition)}
    (hcalls : ∀ call ∈ calls, call.2.OfTexts) : (build calls).OfTexts := by
  have hall (node : Node) (hnode : node.OfTexts) :
      (calls.foldl (fun node call => node.mapBelow (Node.add call.2) call.1) node).OfTexts := by
    induction calls generalizing node with
    | nil => exact hnode
    | cons call calls ih =>
        have hcall := hcalls call List.mem_cons_self
        refine ih (fun later hlater => hcalls later (List.mem_cons_of_mem _ hlater)) _ ?_
        exact hnode.mapBelow (fun child hchild => hchild.add hcall) call.1
  exact hall _ (.object fun _ hmem => absurd hmem List.not_mem_nil)

/-! ## Orders of members -/

theorem nodeWise_ofTexts : NodeWise Node.OfTexts fun _ => True where
  perm _ _ := trivial
  object := ⟨fun | .object hchildren => ⟨trivial, hchildren⟩, fun hall => .object hall.2⟩
  list := ⟨fun | .list hchildren => hchildren, .list⟩

theorem nodeWise_clean : NodeWise Node.Clean fun keys => ∀ key ∈ keys, CleanName key where
  perm hperm hkeys key hmem := hkeys key (hperm.mem_iff.mpr hmem)
  object {mMembers} := by
    rw [List.forall_mem_map]
    exact ⟨fun | .object hnames hvalues => ⟨hnames, hvalues⟩, fun hall => .object hall.1 hall.2⟩
  list := ⟨fun | .list hvalues => hvalues, .list⟩

/-- The document has the members in any order, so it denotes every reordered tree too. -/
theorem Denotes.reordered {json : Json} {node node' : Node} (hdenotes : Denotes json node)
    (hreordered : Reordered node node') : Denotes json node' := by
  induction hdenotes generalizing node' with
  | @object members members' mMembers hperm hlength hnames _ ih =>
      cases node' with
      | Object mMembers' =>
          obtain ⟨enumerated, hperm', hsame⟩ := reordered_object_iff.mp hreordered
          have hread : List.Forall₂ (fun member child => meaning member.1 = units child.1 ∧
              ∀ {node'}, Reordered child.2 node' → Denotes member.2 node') members' mMembers :=
            forall₂_of_zip hlength fun pair hpair => ⟨hnames pair hpair, ih pair hpair⟩
          obtain ⟨members'', hperm'', hread'⟩ := exists_perm_of_forall₂ hread hperm'.symm
          obtain ⟨hlength', hpairs⟩ := zip_of_forall₂ (forall₂_compose hread' hsame)
          refine .object (hperm''.symm.trans hperm) hlength' (fun pair hpair => ?_)
            fun pair hpair => ?_
          · obtain ⟨child, ⟨hname, -⟩, hkey, -⟩ := hpairs pair hpair
            rw [hname, hkey]
          · obtain ⟨child, ⟨-, hvalue⟩, -, hnode⟩ := hpairs pair hpair
            exact hvalue hnode
      | List mMembers' => cases hreordered
      | Value mValue mSubType => cases hreordered
  | @list elements mMembers hlength _ ih =>
      cases node' with
      | Object mMembers' => cases hreordered
      | List mMembers' =>
          have hread : List.Forall₂ (fun element child =>
              ∀ {node'}, Reordered child node' → Denotes element node') elements mMembers :=
            forall₂_of_zip hlength fun pair hpair => ih pair hpair
          obtain ⟨hlength', hpairs⟩ :=
            zip_of_forall₂ (forall₂_compose hread (reordered_list_iff.mp hreordered))
          refine .list hlength' fun pair hpair => ?_
          obtain ⟨child, hvalue, hnode⟩ := hpairs pair hpair
          exact hvalue hnode
      | Value mValue mSubType => cases hreordered
  | string hmeaning =>
      cases hreordered
      exact .string hmeaning
  | bool =>
      cases hreordered
      exact .bool

theorem isReadAs_reordered {text : Text} {node node' : Node} (hreordered : Reordered node node') :
    IsReadAs text node' ↔ IsReadAs text node :=
  and_congr_right fun _ => forall_congr' fun _ => imp_congr_right fun _ =>
    ⟨fun hdenotes => hdenotes.reordered hreordered.symm,
      fun hdenotes => hdenotes.reordered hreordered⟩

/-! ## Counting characters -/

/-- When no summand is too large, sums agree only if all summands do. -/
theorem sums_tight {α : Type} {small large : α → Nat} {holds : α → Prop} {items : List α}
    (hitems : ∀ item ∈ items, small item ≤ large item ∧ (large item ≤ small item → holds item)) :
    (items.map small).sum ≤ (items.map large).sum ∧
      ((items.map large).sum ≤ (items.map small).sum → ∀ item ∈ items, holds item) := by
  induction items with
  | nil => exact ⟨Nat.le_refl _, fun _ _ hmem => absurd hmem List.not_mem_nil⟩
  | cons item items ih =>
      obtain ⟨hle, hholds⟩ := hitems item List.mem_cons_self
      obtain ⟨hrest, hall⟩ := ih fun later hlater => hitems later (List.mem_cons_of_mem _ hlater)
      simp only [List.map_cons, List.sum_cons]
      refine ⟨Nat.add_le_add hle hrest, fun hge other hmem => ?_⟩
      rcases List.mem_cons.mp hmem with rfl | hmem
      · exact hholds (by omega)
      · exact hall (by omega) other hmem

theorem inked_flatMap (text : Text) (printed : Char → Text) :
    inked (text.flatMap printed) = (text.map fun char => inked (printed char)).sum := by
  induction text with
  | nil => rfl
  | cons char text ih =>
      rw [List.flatMap_cons, inked_append, ih, List.map_cons, List.sum_cons]

theorem costOf_units (text : Text) :
    costOf (units text) = (text.map fun char => costOf (charUnits char)).sum := by
  induction text with
  | nil => rfl
  | cons char text ih =>
      rw [units, List.flatMap_cons, costOf_append, List.map_cons, List.sum_cons, ← ih]
      rfl

theorem inked_singleton (char : Char) : inked [char] = if isBlank char then 0 else 1 := by
  cases hblank : isBlank char with
  | false => simp [inked, hblank]
  | true => simp [inked, hblank]

theorem inked_le_cost (char : Char) : inked [char] ≤ costOf (charUnits char) := by
  rw [costOf_charUnits, inked_singleton]
  by_cases hspace : char = ' '
  · rw [hspace]
    decide
  · rw [if_neg hspace]
    split <;> split <;> omega

/-- Characters that have to be escaped take more than one. -/
theorem inked_lt_cost {char : Char} (hbad : char.toNat < 32 ∨ char = '"' ∨ char = '\\') :
    inked [char] < costOf (charUnits char) := by
  rw [costOf_charUnits, inked_singleton, if_pos hbad]
  split <;> omega

/-- A name takes as many characters as it has only if it is clean. -/
theorem name_tight (name : Text) :
    inked name ≤ costOf (units name) ∧ (costOf (units name) ≤ inked name → CleanName name) := by
  have hself : inked name = (name.map fun char => inked [char]).sum := by
    rw [← inked_flatMap, List.flatMap_singleton']
  rw [hself, costOf_units]
  apply sums_tight
  intro char _
  refine ⟨inked_le_cost char, fun hge => ?_⟩
  have hgood : ¬ (char.toNat < 32 ∨ char = '"' ∨ char = '\\') :=
    fun hbad => absurd hge (Nat.not_le_of_lt (inked_lt_cost hbad))
  refine ⟨?_, fun hquote => hgood (.inr (.inl hquote)), fun hslash => hgood (.inr (.inr hslash))⟩
  exact Nat.le_of_not_lt fun hlow => hgood (.inl hlow)

/-- A printed string takes the fewest characters only if it is clean. -/
theorem string_tight (mValue : Text) :
    inked (Value.escapeString mValue) ≤ costOf (units mValue) ∧
      (costOf (units mValue) ≤ inked (Value.escapeString mValue) → CleanString mValue) := by
  rw [Value.escapeString, inked_flatMap, costOf_units]
  apply sums_tight
  intro char _
  by_cases hescaped : char = '"' ∨ char = '\n' ∨ char = '\r' ∨ char = '\t' ∨ char = '\\'
  · rcases hescaped with rfl | rfl | rfl | rfl | rfl
    all_goals exact ⟨by decide, fun _ => by decide⟩
  · obtain ⟨hquote, hfeed, hreturn, htab, hslash⟩ : char ≠ '"' ∧ char ≠ '\n' ∧ char ≠ '\r' ∧
        char ≠ '\t' ∧ char ≠ '\\' := by
      simpa using hescaped
    have hprinted : Value.escapeChar char = [char] := by
      simp [Value.escapeChar, hquote, hfeed, hreturn, htab, hslash]
    rw [hprinted]
    refine ⟨inked_le_cost char, fun hge => .inl ?_⟩
    exact Nat.le_of_not_lt fun hlow => absurd hge (Nat.not_le_of_lt (inked_lt_cost (.inl hlow)))

mutual

/-- The characters other than white space that a text of the tree takes at least. -/
def Node.cost : Node → Nat
  | .Object mMembers => membersCost mMembers + (mMembers.length - 1) + 2
  | .List mMembers => elementsCost mMembers + (mMembers.length - 1) + 2
  | .Value mValue mSubType => if mSubType = .String then costOf (units mValue) + 2 else inked mValue

def membersCost : List (Text × Node) → Nat
  | [] => 0
  | (key, child) :: members => costOf (units key) + child.cost + 3 + membersCost members

def elementsCost : List Node → Nat
  | [] => 0
  | child :: elements => child.cost + elementsCost elements

end

/-- What one member takes, the quotes and the colon included. -/
def memberCost (member : Text × Node) : Nat :=
  costOf (units member.1) + member.2.cost + 3

theorem membersCost_eq (mMembers : List (Text × Node)) :
    membersCost mMembers = (mMembers.map memberCost).sum := by
  induction mMembers with
  | nil => rfl
  | cons member members ih => rw [membersCost, ih, List.map_cons, List.sum_cons, memberCost]

theorem elementsCost_eq (mMembers : List Node) :
    elementsCost mMembers = (mMembers.map Node.cost).sum := by
  induction mMembers with
  | nil => rfl
  | cons child elements ih => rw [elementsCost, ih, List.map_cons, List.sum_cons]

/-! ## No reader finds more than is written -/

theorem sum_le_of_zip {α β : Type} {left : α → Nat} {right : β → Nat} {items : List α}
    {items' : List β} (hlength : items.length = items'.length)
    (hpairs : ∀ pair ∈ items.zip items', right pair.2 ≤ left pair.1) :
    (items'.map right).sum ≤ (items.map left).sum := by
  induction items generalizing items' with
  | nil =>
      obtain rfl := List.eq_nil_of_length_eq_zero hlength.symm
      exact Nat.le_refl _
  | cons item items ih =>
      cases items' with
      | nil => cases hlength
      | cons item' items' =>
          have hfirst := hpairs (item, item') List.mem_cons_self
          have hrest := ih (Nat.succ.inj hlength)
            fun pair hpair => hpairs pair (List.mem_cons_of_mem _ hpair)
          simp only [List.map_cons, List.sum_cons]
          exact Nat.add_le_add hfirst hrest

theorem inked_memberText (member : List Letter × Json) :
    inked (memberText member) = inked (body member.1) + inked member.2.text + 3 := by
  have hcolon : inked [':'] = 1 := rfl
  rw [memberText, ← List.singleton_append, inked_append, inked_append, inked_literal]
  omega

theorem inked_object (members : List (List Letter × Json)) :
    inked (Json.object members).text =
      (members.map fun member => inked (memberText member)).sum + (members.length - 1) + 2 := by
  have hopening : inked ['\x7b'] = 1 := rfl
  have hclosing : inked ['\x7d'] = 1 := rfl
  rw [text_object, ← List.singleton_append, inked_append, inked_append, inked_joined,
    List.map_map, List.length_map]
  simp only [Function.comp_def]
  omega

theorem inked_array (elements : List Json) :
    inked (Json.array elements).text =
      (elements.map fun element => inked element.text).sum + (elements.length - 1) + 2 := by
  have hopening : inked ['['] = 1 := rfl
  have hclosing : inked [']'] = 1 := rfl
  rw [text_array, ← List.singleton_append, inked_append, inked_append, inked_joined,
    List.map_map, List.length_map]
  simp only [Function.comp_def]
  omega

theorem Denotes.cost_le {json : Json} {node : Node} (hdenotes : Denotes json node) :
    node.cost ≤ inked json.text := by
  induction hdenotes with
  | @object members members' mMembers hperm hlength hnames _ ih =>
      have hpairs : ∀ pair ∈ members'.zip mMembers,
          memberCost pair.2 ≤ inked (memberText pair.1) := by
        intro pair hpair
        have hname := cost_le_body pair.1.1
        rw [hnames pair hpair] at hname
        have hvalue := ih pair hpair
        rw [memberCost, inked_memberText]
        omega
      have hsum := @sum_le_of_zip _ _ (fun member => inked (memberText member)) memberCost
        members' mMembers hlength hpairs
      have hsame := (hperm.map fun member => inked (memberText member)).sum_nat
      have hsize := hperm.length_eq
      rw [Node.cost, membersCost_eq, inked_object]
      omega
  | @list elements mMembers hlength _ ih =>
      have hsum := @sum_le_of_zip _ _ (fun element => inked (Json.text element)) Node.cost
        elements mMembers hlength ih
      rw [Node.cost, elementsCost_eq, inked_array]
      omega
  | string hmeaning =>
      rw [Node.cost, if_pos rfl, text_string, inked_literal, ← hmeaning]
      have hcost := cost_le_body ‹List Letter›
      omega
  | @bool value =>
      rw [Node.cost, if_neg (by decide), text_bool, boolText]

/-! ## What is printed -/

theorem blank_lineEnd (level : Int) : Blank (lineEnd level) := by
  unfold lineEnd
  split
  · exact blank_nil
  · exact fun char hmem => List.all_eq_true.mp (by rfl : "\r\n".toList.all isBlank = true) char hmem

theorem blank_tabs (level : Int) : Blank (tabs level) := by
  intro char hmem
  rw [(List.mem_replicate.mp hmem).2]
  rfl

theorem inked_separator {α : Type} (items : List α) (rest : Text) :
    inked ((if items.isEmpty then [] else [',']) ++ rest) =
      (if items.isEmpty then 0 else 1) + inked rest := by
  rw [inked_append]
  cases items with
  | nil => rfl
  | cons item items => rfl

/-- What a member of the printed text takes. -/
def memberInk (level : Int) (member : Text × Node) : Nat :=
  inked member.1 + inked (member.2.stringify (below level)) + 3

theorem inked_stringifyMembers (level : Int) (mMembers : List (Text × Node)) :
    inked (stringifyMembers level mMembers) =
      (mMembers.map (memberInk level)).sum + (mMembers.length - 1) := by
  induction mMembers with
  | nil => rfl
  | cons member members ih =>
      obtain ⟨key, child⟩ := member
      have hcolon : inked "\" : ".toList = 2 := rfl
      have hquote : inked ['"'] = 1 := rfl
      rw [stringifyMembers, ← List.singleton_append, inked_append, inked_append, inked_append,
        inked_append, inked_append, inked_separator, inked_append, ih,
        inked_blank (blank_tabs level), inked_blank (blank_lineEnd level), List.map_cons,
        List.sum_cons, memberInk]
      cases members with
      | nil =>
          simp only [hcolon, hquote, List.isEmpty_nil, if_true, List.map_nil, List.sum_nil,
            List.length_nil, List.length_singleton]
          omega
      | cons next members =>
          simp only [hcolon, hquote, List.isEmpty_cons, Bool.false_eq_true, if_false,
            List.length_cons]
          omega

theorem inked_stringifyElements (level : Int) (mMembers : List Node) :
    inked (stringifyElements level mMembers) =
      (mMembers.map fun child => inked (child.stringify (below level))).sum +
        (mMembers.length - 1) := by
  induction mMembers with
  | nil => rfl
  | cons child elements ih =>
      rw [stringifyElements, inked_append, inked_append, inked_separator, inked_append, ih,
        inked_blank (blank_tabs level), inked_blank (blank_lineEnd level), List.map_cons,
        List.sum_cons]
      cases elements with
      | nil =>
          simp only [List.isEmpty_nil, if_true, List.map_nil, List.sum_nil, List.length_nil,
            List.length_singleton]
          omega
      | cons next elements =>
          simp only [List.isEmpty_cons, Bool.false_eq_true, if_false, List.length_cons]
          omega

theorem inked_brackets (opening closing : Char) (level : Int) (text : Text)
    (hopening : isBlank opening = false) (hclosing : isBlank closing = false) :
    inked (opening :: (lineEnd level ++ (text ++ (tabs (level - 1) ++ [closing])))) =
      inked text + 2 := by
  rw [← List.singleton_append, inked_append, inked_append, inked_append, inked_append,
    inked_blank (blank_lineEnd level), inked_blank (blank_tabs (level - 1)), inked_singleton,
    inked_singleton, hopening, hclosing]
  simp only [Bool.false_eq_true, if_false]
  omega

/-- The printed text is too short for the tree unless everything in it is clean. -/
theorem stringify_tight {node : Node} (hofTexts : node.OfTexts) (level : Int) :
    inked (node.stringify level) ≤ node.cost ∧
      (node.cost ≤ inked (node.stringify level) → node.Clean) := by
  induction node using Node.children_induction generalizing level with
  | object mMembers ih =>
      cases hofTexts with
      | object hchildren =>
          have hmembers : ∀ member ∈ mMembers, memberInk level member ≤ memberCost member ∧
              (memberCost member ≤ memberInk level member →
                CleanName member.1 ∧ member.2.Clean) := by
            intro member hmem
            obtain ⟨hname, hcleanName⟩ := name_tight member.1
            obtain ⟨hchild, hcleanChild⟩ := ih member hmem (hchildren member hmem) (below level)
            unfold memberInk memberCost
            exact ⟨by omega, fun hge => ⟨hcleanName (by omega), hcleanChild (by omega)⟩⟩
          obtain ⟨hle, hclean⟩ := sums_tight hmembers
          rw [Node.stringify, inked_brackets _ _ _ _ rfl rfl, inked_stringifyMembers, Node.cost,
            membersCost_eq]
          refine ⟨by omega, fun hge => .object ?_ ?_⟩
          · exact fun member hmem => (hclean (by omega) member hmem).1
          · exact fun member hmem => (hclean (by omega) member hmem).2
  | list mMembers ih =>
      cases hofTexts with
      | list hchildren =>
          obtain ⟨hle, hclean⟩ :=
            sums_tight fun child hmem => ih child hmem (hchildren child hmem) (below level)
          rw [Node.stringify, inked_brackets _ _ _ _ rfl rfl, inked_stringifyElements, Node.cost,
            elementsCost_eq]
          exact ⟨by omega, fun hge => .list (hclean (by omega))⟩
  | value mValue mSubType =>
      cases hofTexts with
      | string =>
          obtain ⟨hle, hclean⟩ := string_tight mValue
          have hquote : inked ['"'] = 1 := rfl
          rw [Node.stringify, Value.stringify, ← List.singleton_append, inked_append, inked_append,
            Node.cost, if_pos rfl]
          exact ⟨by omega, fun hge => .string (hclean (by omega))⟩
      | bool => exact ⟨Nat.le_refl _, fun _ => .bool⟩

/-- Only a clean tree can be read from what is printed of it. -/
theorem clean_of_isReadAs {node : Node} (hofTexts : node.OfTexts) {level : Int}
    (hread : IsReadAs (node.stringify level) node) : node.Clean := by
  obtain ⟨⟨json, hwritten⟩, hall⟩ := hread
  have hcost := (hall json hwritten).cost_le
  have hsame : inked (node.stringify level) = inked json.text := hwritten.inked
  exact (stringify_tight hofTexts level).2 (hsame ▸ hcost)

/-! ## Clean trees -/

theorem units_cons (char : Char) (text : Text) : units (char :: text) = charUnits char ++ units text :=
  List.flatMap_cons

theorem meaning_cons (letter : Letter) (letters : List Letter) :
    meaning (letter :: letters) = letter.units ++ meaning letters :=
  List.flatMap_cons

theorem exists_letters_name {name : Text} (hclean : CleanName name) :
    ∃ letters, body letters = name ∧ meaning letters = units name := by
  induction name with
  | nil => exact ⟨[], rfl, rfl⟩
  | cons char name ih =>
      have hplain := hclean char List.mem_cons_self
      obtain ⟨letters, hbody, hmeaning⟩ := ih fun later hlater =>
        hclean later (List.mem_cons_of_mem _ hlater)
      refine ⟨.plain char hplain :: letters, ?_, ?_⟩
      · rw [body_cons, hbody]
        rfl
      · rw [meaning_cons, units_cons, hmeaning]
        rfl

/-- A clean character is printed as a letter that stands for it. -/
theorem exists_letter {char : Char}
    (hclean : 32 ≤ char.toNat ∨ char = '\n' ∨ char = '\r' ∨ char = '\t') :
    ∃ letter : Letter, letter.text = Value.escapeChar char ∧ letter.units = charUnits char := by
  by_cases hescaped : char = '"' ∨ char = '\n' ∨ char = '\r' ∨ char = '\t' ∨ char = '\\'
  · rcases hescaped with rfl | rfl | rfl | rfl | rfl
    · exact ⟨.short .quote, rfl, rfl⟩
    · exact ⟨.short .lineFeed, rfl, rfl⟩
    · exact ⟨.short .carriageReturn, rfl, rfl⟩
    · exact ⟨.short .tab, rfl, rfl⟩
    · exact ⟨.short .backslash, rfl, rfl⟩
  · obtain ⟨hquote, hfeed, hreturn, htab, hslash⟩ : char ≠ '"' ∧ char ≠ '\n' ∧ char ≠ '\r' ∧
        char ≠ '\t' ∧ char ≠ '\\' := by
      simpa using hescaped
    have hlow : 32 ≤ char.toNat := by simpa [hfeed, hreturn, htab] using hclean
    refine ⟨.plain char ⟨hlow, hquote, hslash⟩, ?_, rfl⟩
    simp [Letter.text, Value.escapeChar, hquote, hfeed, hreturn, htab, hslash]

theorem exists_letters_string {mValue : Text} (hclean : CleanString mValue) :
    ∃ letters, body letters = Value.escapeString mValue ∧ meaning letters = units mValue := by
  induction mValue with
  | nil => exact ⟨[], rfl, rfl⟩
  | cons char mValue ih =>
      obtain ⟨letter, htext, hunits⟩ := exists_letter (hclean char List.mem_cons_self)
      obtain ⟨letters, hbody, hmeaning⟩ := ih fun later hlater =>
        hclean later (List.mem_cons_of_mem _ hlater)
      refine ⟨letter :: letters, ?_, ?_⟩
      · rw [body_cons, htext, hbody, escapeString_cons]
      · rw [meaning_cons, units_cons, hunits, hmeaning]

theorem spaced_comma {α β : Type} (items : List α) {items' : List β}
    (hlength : items.length = items'.length) :
    Spaced (comma items) (if items'.isEmpty then [] else [',']) := by
  cases items with
  | nil =>
      obtain rfl := List.eq_nil_of_length_eq_zero hlength.symm
      exact .nil blank_nil
  | cons item items =>
      cases items' with
      | nil => cases hlength
      | cons item' items' => exact spaced_token _

/-- The documents that the printed trees are texts of. -/
def Prints (node : Node) (json : Json) : Prop :=
  Denotes json node ∧ ∀ level, Spaced json.tokens (node.stringify level)

theorem exists_members {mMembers : List (Text × Node)}
    (hnames : ∀ member ∈ mMembers, CleanName member.1)
    (hvalues : ∀ member ∈ mMembers, ∃ json, Prints member.2 json) :
    ∃ members : List (List Letter × Json), members.length = mMembers.length ∧
      (∀ pair ∈ members.zip mMembers, meaning pair.1.1 = units pair.2.1) ∧
      (∀ pair ∈ members.zip mMembers, Denotes pair.1.2 pair.2.2) ∧
      ∀ level, Spaced (memberTokens members) (stringifyMembers level mMembers) := by
  induction mMembers with
  | nil =>
      exact ⟨[], rfl, fun _ hmem => absurd hmem List.not_mem_nil,
        fun _ hmem => absurd hmem List.not_mem_nil, fun _ => .nil blank_nil⟩
  | cons member mMembers ih =>
      obtain ⟨key, child⟩ := member
      obtain ⟨letters, hbody, hmeaning⟩ := exists_letters_name (hnames _ List.mem_cons_self)
      obtain ⟨json, hdenotes, hspaced⟩ := hvalues _ List.mem_cons_self
      obtain ⟨members, hlength, hall, hall', hrest⟩ := ih
        (fun later hlater => hnames later (List.mem_cons_of_mem _ hlater))
        (fun later hlater => hvalues later (List.mem_cons_of_mem _ hlater))
      refine ⟨(letters, json) :: members, congrArg (· + 1) hlength, ?_, ?_, fun level => ?_⟩
      · intro pair hpair
        rcases List.mem_cons.mp hpair with rfl | hpair
        · exact hmeaning
        · exact hall pair hpair
      · intro pair hpair
        rcases List.mem_cons.mp hpair with rfl | hpair
        · exact hdenotes
        · exact hall' pair hpair
      · have hmore := (spaced_comma members hlength).append
          ((hrest level).blank (blank_lineEnd level))
        have hspace : Blank [' '] := fun char hmem => by rw [List.mem_singleton.mp hmem]; rfl
        have hvalue := ((hspaced (below level)).append hmore).blank hspace
        have hmember : Spaced (literal letters :: [':'] :: _) _ :=
          .cons (blank_tabs level) (.cons hspace hvalue)
        simpa [stringifyMembers, memberTokens, literal, hbody] using hmember

theorem exists_elements {mMembers : List Node}
    (hvalues : ∀ child ∈ mMembers, ∃ json, Prints child json) :
    ∃ elements : List Json, elements.length = mMembers.length ∧
      (∀ pair ∈ elements.zip mMembers, Denotes pair.1 pair.2) ∧
      ∀ level, Spaced (elementTokens elements) (stringifyElements level mMembers) := by
  induction mMembers with
  | nil =>
      exact ⟨[], rfl, fun _ hmem => absurd hmem List.not_mem_nil, fun _ => .nil blank_nil⟩
  | cons child mMembers ih =>
      obtain ⟨json, hdenotes, hspaced⟩ := hvalues _ List.mem_cons_self
      obtain ⟨elements, hlength, hall, hrest⟩ := ih
        (fun later hlater => hvalues later (List.mem_cons_of_mem _ hlater))
      refine ⟨json :: elements, congrArg (· + 1) hlength, ?_, fun level => ?_⟩
      · intro pair hpair
        rcases List.mem_cons.mp hpair with rfl | hpair
        · exact hdenotes
        · exact hall pair hpair
      · have hmore := (spaced_comma elements hlength).append
          ((hrest level).blank (blank_lineEnd level))
        have hvalue := ((hspaced (below level)).append hmore).blank (blank_tabs level)
        simpa [stringifyElements, elementTokens] using hvalue

theorem spaced_brackets {opening closing text : Text} {tokens : List Text} (level : Int)
    (hspaced : Spaced tokens text) :
    Spaced (opening :: (tokens ++ [closing]))
      (opening ++ (lineEnd level ++ (text ++ (tabs (level - 1) ++ closing)))) := by
  have hend := (spaced_token closing).blank (blank_tabs (level - 1))
  exact .cons blank_nil ((hspaced.append hend).blank (blank_lineEnd level))

theorem exists_prints {node : Node} (hofTexts : node.OfTexts) (hclean : node.Clean) :
    ∃ json, Prints node json := by
  induction node using Node.children_induction with
  | object mMembers ih =>
      cases hofTexts with
      | object hchildren =>
          cases hclean with
          | object hnames hvalues =>
              obtain ⟨members, hlength, hall, hall', hspaced⟩ := exists_members hnames
                fun member hmem => ih member hmem (hchildren member hmem) (hvalues member hmem)
              exact ⟨.object members, .object (.refl members) hlength hall hall',
                fun level => spaced_brackets level (hspaced level)⟩
  | list mMembers ih =>
      cases hofTexts with
      | list hchildren =>
          cases hclean with
          | list hvalues =>
              obtain ⟨elements, hlength, hall, hspaced⟩ := exists_elements
                fun child hmem => ih child hmem (hchildren child hmem) (hvalues child hmem)
              exact ⟨.array elements, .list hlength hall,
                fun level => spaced_brackets level (hspaced level)⟩
  | value mValue mSubType =>
      cases hofTexts with
      | string =>
          cases hclean with
          | string hclean =>
              obtain ⟨letters, hbody, hmeaning⟩ := exists_letters_string hclean
              refine ⟨.string letters, .string hmeaning, fun level => ?_⟩
              rw [Node.stringify, Value.stringify, ← hbody]
              exact spaced_token _
      | bool => exact ⟨.bool _, .bool, fun level => spaced_token _⟩

theorem isReadAs_of_clean {node : Node} (hofTexts : node.OfTexts) (hclean : node.Clean)
    (level : Int) : IsReadAs (node.stringify level) node := by
  obtain ⟨json, hdenotes, hspaced⟩ := exists_prints hofTexts hclean
  refine ⟨⟨json, hspaced level⟩, fun json' hwritten' => ?_⟩
  rw [← writtenAs_unique (hspaced level) hwritten']
  exact hdenotes

/--
The text of a document built of objects, lists, strings and booleans, in whatever
order the tables enumerate the members, is valid and read as that document exactly
when its names and strings are clean.
-/
theorem stringify_isReadAs_iff (formatted : Bool) (calls : List (Path × Addition))
    (hcalls : ∀ call ∈ calls, call.2.OfTexts) {printed : Node}
    (hreordered : Reordered (build calls) printed) :
    IsReadAs (stringify formatted printed) (build calls) ↔ (build calls).Clean := by
  have hofTexts : printed.OfTexts := nodeWise_ofTexts.reordered hreordered (ofTexts_build hcalls)
  rw [← isReadAs_reordered hreordered]
  constructor
  · intro hread
    exact nodeWise_clean.reordered hreordered.symm (clean_of_isReadAs hofTexts hread)
  · intro hclean
    exact isReadAs_of_clean hofTexts (nodeWise_clean.reordered hreordered hclean) _

/-- The calls that build a document with a member `a` that has the members `b` and `c`. -/
def exampleCalls : List (Path × Addition) :=
  [([], .addObject ['a']), ([.key ['a']], .addValue (.bool true) ['b']),
    ([.key ['a']], .addValue (.string ['x']) ['c']), ([], .addList ['d'])]

/-- The document, as tables may enumerate it. -/
def examplePrinted : Node :=
  .Object [(['d'], .List []),
    (['a'], .Object [(['c'], .Value ['x'] .String), (['b'], .Value "true".toList .Bool)])]

theorem reordered_examplePrinted : Reordered (build exampleCalls) examplePrinted := by
  have hbuilt : build exampleCalls = .Object [(['a'], .Object [(['b'], .Value "true".toList .Bool),
      (['c'], .Value ['x'] .String)]), (['d'], .List [])] := rfl
  have hinner : Reordered
      (.Object [(['b'], .Value "true".toList .Bool), (['c'], .Value ['x'] .String)])
      (.Object [(['c'], .Value ['x'] .String), (['b'], .Value "true".toList .Bool)]) :=
    reordered_object_iff.mpr ⟨_, .swap _ _ _, .cons ⟨rfl, .value⟩ (.cons ⟨rfl, .value⟩ .nil)⟩
  rw [hbuilt]
  exact reordered_object_iff.mpr ⟨_, .swap _ _ _, .cons ⟨rfl, .refl _⟩ (.cons ⟨rfl, hinner⟩ .nil)⟩

theorem stringify_isReadAs_iff_members :
    IsReadAs (stringify true examplePrinted) (build exampleCalls) ↔ (build exampleCalls).Clean :=
  stringify_isReadAs_iff true exampleCalls (by simp [exampleCalls, Addition.OfTexts])
    reordered_examplePrinted

/-- A quote in a name ends the name for every reader. -/
theorem quote_in_name_not_isReadAs :
    ¬ IsReadAs (stringify false (build [([], .addValue (.string ['x']) ['a', '"', 'b'])]))
      (build [([], .addValue (.string ['x']) ['a', '"', 'b'])]) := by
  intro hread
  have hofTexts : (build [([], .addValue (.string ['x']) ['a', '"', 'b'])]).OfTexts :=
    ofTexts_build (by simp [Addition.OfTexts])
  have hclean : (Node.Object [(['a', '"', 'b'], .Value ['x'] .String)]).Clean :=
    clean_of_isReadAs hofTexts hread
  cases hclean with
  | object hnames _ =>
      have hname := hnames _ List.mem_cons_self '"' (by simp)
      exact hname.2.1 rfl

end DumaisLib.JSON

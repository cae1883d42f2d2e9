import DumaisLib.JSON.GeneratedKeys
import DumaisLib.JSON.ParsedKeys

/-!
# Strings stored from program code

A string is added to an object or to a list, or assigned to a value.  Every one
of these calls unescapes it, as the parser does with the text of a literal.
-/

namespace DumaisLib.JSON

open Machine

/-! ## Reading, assigning and copying -/

/-- `toString` -/
def Node.str : Node → Text
  | .Object _ => "\x7bobject\x7d".toList
  | .List _ => "\x7blist\x7d".toList
  | .Value mValue _ => mValue

/-- Objects and lists ignore the call. -/
def Node.setStringValue (value : Text) : Node → Node
  | .Value _ _ => .Value (Value.unEscapeString value) .String
  | node => node

mutual

def Node.copy : Node → Node
  | .Object mMembers => .Object (copyMembers [] mMembers)
  | .List mMembers => .List (copyElements mMembers)
  | .Value mValue mSubType => .Value mValue mSubType

def copyMembers (copied : List (Text × Node)) : List (Text × Node) → List (Text × Node)
  | [] => copied
  | (key, child) :: members => copyMembers (assign key child.copy copied) members

def copyElements : List Node → List Node
  | [] => []
  | child :: elements => child.copy :: copyElements elements

end

/-- A call that stores a string, with the lookups that lead to the reference it is made on. -/
inductive Storing where
  | addValue (path : Path) (name : Text)
  | assign (path : Path)

namespace Storing

def path : Storing → Path
  | .addValue path _ => path
  | .assign path => path

/-- What the call does to the node that it is made on. -/
def change (s : Text) : Storing → Node → Node
  | .addValue _ name => Node.add (.addValue (.string s) name)
  | .assign _ => Node.setStringValue s

def stored (s : Text) (way : Storing) (root : Node) : Node :=
  root.mapBelow (way.change s) way.path

/-- Objects and lists take a new value, and values a new text. -/
def Takes : Storing → Node → Prop
  | .addValue _ _, .Value _ _ => False
  | .addValue _ _, _ => True
  | .assign _, .Value _ _ => True
  | .assign _, _ => False

/-- Where the string is then, below the node that the call was made on. -/
def below : Storing → Node → Path
  | .addValue _ name, .Object mMembers => [.key (keyFor name mMembers)]
  | .addValue _ _, .List mMembers => [.index mMembers.length]
  | _, _ => []

end Storing

/-- A document that survives printing and parsing, and can be one level deeper. -/
structure Document where
  mMembers : List (Text × Node)
  printable : (Node.Object mMembers).Printable
  depth_lt : (Node.Object mMembers).depth + 1 < 2 ^ 31

namespace Document

def root (document : Document) : Node :=
  .Object document.mMembers

/-- A call in the document that stores its string. -/
structure Call (document : Document) where
  way : Storing
  found : Node
  found_eq : document.root.below? way.path = some found
  takes : way.Takes found

namespace Call

variable {document : Document}

def stored (call : Call document) (s : Text) : Node :=
  call.way.stored s document.root

/-- The path to the stored string. -/
def place (call : Call document) : Path :=
  call.way.path ++ call.way.below call.found

/-- What is claimed of the stored string, in whatever order the members are printed. -/
structure KeepsString (call : Call document) (s : Text) : Prop where
  str_eq : ((call.stored s).below? call.place).map Node.str = some s
  copied : ((call.stored s).copy.below? call.place).map Node.str = some s
  parsed : ∀ formatted printed, Reordered (call.stored s) printed →
    ∃ parsed, parse (stringify formatted printed) = .finished parsed ∧
      (parsed.below? call.place).map Node.str = some s

/-- A name that is used for a member is empty or can stand between quotes. -/
def NameFits (call : Call document) : Prop :=
  ∀ path name mMembers, call.way = .addValue path name → call.found = .Object mMembers →
    name = [] ∨ Quotable false name

end Call

end Document

/-- No backslash is followed by a character that it is unescaped with. -/
def Unescaped (s : Text) : Prop :=
  ∀ before letter behind, s = before ++ '\\' :: letter :: behind → Value.unEscapeChar letter = none

/-! ## What unescaping leaves alone -/

theorem length_unEscapeString_le (s : Text) : (Value.unEscapeString s).length ≤ s.length := by
  fun_induction Value.unEscapeString s with
  | case1 => exact Nat.le_refl _
  | case2 char => exact Nat.le_refl _
  | case3 char2 st plain hplain ih =>
      simp only [List.length_cons]
      omega
  | case4 char2 st hplain ih => exact Nat.succ_le_succ ih
  | case5 char char2 st hslash ih => exact Nat.succ_le_succ ih

theorem unescaped_cons (char : Char) (s : Text) :
    Unescaped (char :: s) ↔
      (char = '\\' → ∀ letter behind, s = letter :: behind → Value.unEscapeChar letter = none) ∧
        Unescaped s := by
  constructor
  · intro hunescaped
    refine ⟨?_, fun before letter behind heq => hunescaped (char :: before) letter behind ?_⟩
    · rintro rfl letter behind rfl
      exact hunescaped [] letter behind rfl
    · rw [heq]
      rfl
  · rintro ⟨hfirst, hrest⟩ before letter behind heq
    cases before with
    | nil =>
        obtain ⟨hslash, htail⟩ := List.cons.inj heq
        exact hfirst hslash letter behind htail
    | cons _ before => exact hrest before letter behind (List.cons.inj heq).2

theorem unescaped_nil : Unescaped [] := by
  intro before letter behind heq
  exact absurd heq.symm (List.append_ne_nil_of_right_ne_nil _ (List.cons_ne_nil _ _))

/-- A text that unescaping leaves as it is. -/
theorem unEscapeString_eq_iff (s : Text) : Value.unEscapeString s = s ↔ Unescaped s := by
  fun_induction Value.unEscapeString s with
  | case1 => exact iff_of_true rfl unescaped_nil
  | case2 char =>
      refine iff_of_true rfl ((unescaped_cons _ _).mpr ⟨?_, unescaped_nil⟩)
      intro _ letter behind heq
      cases heq
  | case3 char2 st plain hplain ih =>
      refine iff_of_false ?_ ?_
      · intro heq
        have hlength := congrArg List.length heq
        have hle := length_unEscapeString_le st
        simp only [List.length_cons] at hlength
        omega
      · intro hunescaped
        have hnone := hunescaped [] char2 st rfl
        rw [hplain] at hnone
        cases hnone
  | case4 char2 st hplain ih =>
      rw [unescaped_cons, ← ih, List.cons_inj_right]
      refine (and_iff_right ?_).symm
      rintro - letter behind heq
      rwa [← (List.cons.inj heq).1]
  | case5 char char2 st hslash ih =>
      rw [unescaped_cons, ← ih, List.cons_inj_right]
      exact (and_iff_right fun heq => absurd heq hslash).symm

/-! ## Copies -/

theorem copyMembers_eq {mMembers copied : List (Text × Node)}
    (hnodup : ((copied ++ mMembers).map Prod.fst).Nodup)
    (hcopy : ∀ member ∈ mMembers, member.2.copy = member.2) :
    copyMembers copied mMembers = copied ++ mMembers := by
  induction mMembers generalizing copied with
  | nil => exact (List.append_nil copied).symm
  | cons member mMembers ih =>
      obtain ⟨key, child⟩ := member
      obtain ⟨hchild, hrest⟩ := List.forall_mem_cons.mp hcopy
      have hfresh : key ∉ copied.map Prod.fst := by
        rw [List.map_append, List.map_cons] at hnodup
        exact fun hmem => (List.nodup_append.mp hnodup).2.2 key hmem key List.mem_cons_self rfl
      dsimp only at hchild
      rw [copyMembers, hchild, assign_fresh hfresh, ih ?_ hrest, List.append_assoc]
      · rfl
      · rwa [List.append_assoc]

theorem copyElements_eq {mMembers : List Node} (hcopy : ∀ child ∈ mMembers, child.copy = child) :
    copyElements mMembers = mMembers := by
  induction mMembers with
  | nil => rfl
  | cons child mMembers ih =>
      obtain ⟨hchild, hrest⟩ := List.forall_mem_cons.mp hcopy
      rw [copyElements, hchild, ih hrest]

/-- A copy is the same tree. -/
theorem copy_eq {node : Node} (hprintable : node.Printable) : node.copy = node := by
  induction node using Node.children_induction with
  | object mMembers ih =>
      cases hprintable with
      | object hnodup hkeys hchildren =>
          rw [Node.copy, @copyMembers_eq _ [] hnodup fun member hmember =>
            ih member hmember (hchildren member hmember)]
          rfl
  | list mMembers ih =>
      cases hprintable with
      | list hchildren =>
          rw [Node.copy, copyElements_eq fun child hchild => ih child hchild (hchildren child hchild)]
  | value mValue mSubType => rfl

/-! ## Printed texts without NUL -/

/-- Neither a name nor the printed text of a value has a NUL. -/
abbrev Node.NulFree : Node → Prop :=
  Node.Everywhere (fun key => '\x00' ∉ key) fun mValue mSubType =>
    '\x00' ∉ Value.stringify mValue mSubType

theorem Node.Printable.nulFree {node : Node} (hprintable : node.Printable) : node.NulFree := by
  induction node using Node.children_induction with
  | object mMembers ih =>
      cases hprintable with
      | object hnodup hkeys hchildren =>
          exact .object (fun member hmember => nul_not_mem_of_quotable (hkeys member hmember).2)
            fun member hmember => ih member hmember (hchildren member hmember)
  | list mMembers ih =>
      cases hprintable with
      | list hchildren => exact .list fun child hchild => ih child hchild (hchildren child hchild)
  | value mValue mSubType =>
      cases hprintable with
      | value hvalue => exact .value (nul_not_mem_value hvalue)

theorem nul_not_mem_tabs (level : Int) : '\x00' ∉ tabs level := by
  intro hmem
  exact absurd (List.eq_of_mem_replicate hmem) (by decide)

theorem nul_not_mem_lineEnd (level : Int) : '\x00' ∉ lineEnd level := by
  rw [lineEnd]
  split <;> decide

theorem nul_not_mem_members {mMembers : List (Text × Node)} (level : Int)
    (hkeys : ∀ member ∈ mMembers, '\x00' ∉ member.1)
    (hchildren : ∀ member ∈ mMembers, ∀ level, '\x00' ∉ member.2.stringify level) :
    '\x00' ∉ stringifyMembers level mMembers := by
  induction mMembers with
  | nil => exact List.not_mem_nil
  | cons member mMembers ih =>
      obtain ⟨key, child⟩ := member
      obtain ⟨hkey, hkeys⟩ := List.forall_mem_cons.mp hkeys
      obtain ⟨hchild, hchildren⟩ := List.forall_mem_cons.mp hchildren
      have hcomma : '\x00' ∉ if mMembers.isEmpty then [] else [','] := by
        split <;> decide
      have hcolon : '\x00' ∉ "\" : ".toList := by decide
      simp only [stringifyMembers, List.mem_append, List.mem_cons, not_or]
      exact ⟨nul_not_mem_tabs level, by decide, ⟨hkey, hcolon⟩, hchild _, hcomma,
        nul_not_mem_lineEnd level, ih hkeys hchildren⟩

theorem nul_not_mem_elements {mMembers : List Node} (level : Int)
    (hchildren : ∀ child ∈ mMembers, ∀ level, '\x00' ∉ child.stringify level) :
    '\x00' ∉ stringifyElements level mMembers := by
  induction mMembers with
  | nil => exact List.not_mem_nil
  | cons child mMembers ih =>
      obtain ⟨hchild, hchildren⟩ := List.forall_mem_cons.mp hchildren
      have hcomma : '\x00' ∉ if mMembers.isEmpty then [] else [','] := by
        split <;> decide
      simp only [stringifyElements, List.mem_append, not_or]
      exact ⟨nul_not_mem_tabs level, hchild _, hcomma, nul_not_mem_lineEnd level, ih hchildren⟩

theorem nul_not_mem_stringify {node : Node} (hnulFree : node.NulFree) (level : Int) :
    '\x00' ∉ node.stringify level := by
  induction node using Node.children_induction generalizing level with
  | object mMembers ih =>
      cases hnulFree with
      | object hkeys hchildren =>
          have hmembers := nul_not_mem_members level hkeys fun member hmember =>
            ih member hmember (hchildren member hmember)
          simp only [Node.stringify, List.mem_append, List.mem_cons, List.not_mem_nil, not_or]
          exact ⟨by decide, nul_not_mem_lineEnd level, hmembers, nul_not_mem_tabs _, by decide,
            not_false⟩
  | list mMembers ih =>
      cases hnulFree with
      | list hchildren =>
          have hmembers := nul_not_mem_elements level fun child hchild =>
            ih child hchild (hchildren child hchild)
          simp only [Node.stringify, List.mem_append, List.mem_cons, List.not_mem_nil, not_or]
          exact ⟨by decide, nul_not_mem_lineEnd level, hmembers, nul_not_mem_tabs _, by decide,
            not_false⟩
  | value mValue mSubType =>
      cases hnulFree with
      | value hvalue => exact hvalue

/-! ## New members -/

theorem map_fst_assign {key : Text} {mMembers : List (Text × Node)}
    (hmem : key ∈ mMembers.map Prod.fst) (node : Node) :
    (assign key node mMembers).map Prod.fst = mMembers.map Prod.fst := by
  induction mMembers with
  | nil => cases hmem
  | cons member mMembers ih =>
      rw [assign]
      split
      · rename_i hkey
        rw [List.map_cons, List.map_cons, hkey]
      · rename_i hkey
        have hrest := (List.mem_cons.mp hmem).resolve_left (Ne.symm hkey)
        rw [List.map_cons, List.map_cons, ih hrest]

theorem nodup_assign {mMembers : List (Text × Node)} (hnodup : (mMembers.map Prod.fst).Nodup)
    (key : Text) (node : Node) : ((assign key node mMembers).map Prod.fst).Nodup := by
  by_cases hmem : key ∈ mMembers.map Prod.fst
  · rwa [map_fst_assign hmem]
  · rw [assign_fresh hmem, List.map_append]
    refine List.nodup_append.mpr ⟨hnodup, List.nodup_singleton _, ?_⟩
    rintro other hother _ hkey rfl
    obtain rfl := List.mem_singleton.mp hkey
    exact hmem hother

/-! ## The stored string -/

/-- The new value. -/
theorem string_node (s name : Text) :
    (Addition.addValue (.string s) name).node = .Value (Value.unEscapeString s) .String := rfl

theorem depth_change_le (s : Text) (way : Storing) (node : Node) :
    (way.change s node).depth ≤ node.depth + 1 := by
  cases way with
  | addValue path name =>
      cases node with
      | Object mMembers =>
          refine Nat.succ_le_succ (depthMembers_le (forall_mem_assign ?_ ?_))
          · exact fun member hmember => Nat.le_succ_of_le (depth_le_depthMembers hmember)
          · exact Nat.succ_le_succ (Nat.zero_le _)
      | List mMembers =>
          refine Nat.succ_le_succ (depthElements_le (forall_mem_append_singleton ?_ ?_))
          · exact fun child hchild => Nat.le_succ_of_le (depth_le_depthElements hchild)
          · exact Nat.succ_le_succ (Nat.zero_le _)
      | Value mValue mSubType => exact Nat.le_succ _
  | assign path =>
      cases node with
      | Object mMembers => exact Nat.le_succ _
      | List mMembers => exact Nat.le_succ _
      | Value mValue mSubType => exact Nat.le_succ _

namespace Document.Call

variable {document : Document} (call : Call document) {s : Text}

/-- The call leaves a string value, of the unescaped text. -/
theorem stored_below (s : Text) :
    (call.stored s).below? call.place = some (.Value (Value.unEscapeString s) .String) := by
  rw [stored, Storing.stored, place, below_mapBelow call.found_eq]
  have htakes := call.takes
  cases hway : call.way with
  | addValue path name =>
      rw [hway] at htakes
      cases hfound : call.found with
      | Object mMembers =>
          simp only [Storing.change, Storing.below, Node.add, below_cons, Node.child?, string_node]
          rw [Addition.name, lookup_assign]
          rfl
      | List mMembers =>
          simp only [Storing.change, Storing.below, Node.add, below_cons, Node.child?, string_node]
          rw [List.getElem?_append_right (Nat.le_refl _), Nat.sub_self]
          rfl
      | Value mValue mSubType =>
          rw [hfound] at htakes
          exact htakes.elim
  | assign path =>
      rw [hway] at htakes
      cases hfound : call.found with
      | Object mMembers =>
          rw [hfound] at htakes
          exact htakes.elim
      | List mMembers =>
          rw [hfound] at htakes
          exact htakes.elim
      | Value mValue mSubType => rfl

theorem stored_printable (hnul : '\x00' ∉ Value.unEscapeString s) (hfits : call.NameFits) :
    (call.stored s).Printable := by
  refine document.printable.mapBelow fun found hfound hprintable => ?_
  obtain rfl := Option.some.inj (hfound.symm.trans call.found_eq)
  have hvalue : (Node.Value (Value.unEscapeString s) .String).Printable := .value hnul
  cases hway : call.way with
  | addValue path name =>
      cases hfound : call.found with
      | Object mMembers =>
          rw [hfound] at hprintable
          cases hprintable with
          | object hnodup hkeys hchildren =>
              have hkey := @keyFor_quotable mMembers name (hfits path name mMembers hway hfound)
              exact .object (nodup_assign hnodup _ _) (forall_mem_assign hkeys hkey)
                (forall_mem_assign hchildren hvalue)
      | List mMembers =>
          rw [hfound] at hprintable
          cases hprintable with
          | list hchildren => exact .list (forall_mem_append_singleton hchildren hvalue)
      | Value mValue mSubType =>
          rw [hfound] at hprintable
          exact hprintable
  | assign path =>
      cases hfound : call.found with
      | Object mMembers =>
          rw [hfound] at hprintable
          exact hprintable
      | List mMembers =>
          rw [hfound] at hprintable
          exact hprintable
      | Value mValue mSubType => exact hvalue

theorem stored_depth (s : Text) : (call.stored s).depth < 2 ^ 31 :=
  (depth_mapBelow_le (depth_change_le s call.way) _ _).trans_lt document.depth_lt

/-- The root is an object before and after the call. -/
theorem stored_object (s : Text) : ∃ mMembers, call.stored s = .Object mMembers := by
  rw [stored, Storing.stored, root]
  cases hpath : call.way.path with
  | nil =>
      have hfound := call.found_eq
      have htakes := call.takes
      rw [hpath] at hfound
      cases hway : call.way with
      | addValue path name => exact ⟨_, rfl⟩
      | assign path =>
          obtain heq := Option.some.inj hfound
          rw [hway, ← heq] at htakes
          exact htakes.elim
  | cons index path =>
      cases index with
      | key key => exact ⟨_, rfl⟩
      | index i => exact ⟨_, rfl⟩

/-- Without a NUL in the name and in the string there is none in the printed text. -/
theorem stored_nulFree {name : Text} {path : Path} (hway : call.way = .addValue path name)
    (hne : name ≠ []) (hname : '\x00' ∉ name)
    (hvalue : '\x00' ∉ Value.stringify (Value.unEscapeString s) .String) :
    (call.stored s).NulFree := by
  rw [stored, Storing.stored, hway]
  refine document.printable.nulFree.mapBelow (fun child hchild => ?_) path
  cases child with
  | Object mMembers =>
      refine everywhere_assign hchild ?_ (.value hvalue)
      rwa [Addition.name, keyFor, if_neg hne]
  | List mMembers => exact everywhere_append hchild (.value hvalue)
  | Value mValue mSubType => exact hchild

/-- A name under which something is found in a parsed text fits. -/
theorem nameFits_of_parsed {formatted : Bool} {parsed found : Node}
    (hparse : parse (stringify formatted (call.stored s)) = .finished parsed)
    (hfound : parsed.below? call.place = some found)
    (hvalue : '\x00' ∉ Value.stringify (Value.unEscapeString s) .String) : call.NameFits := by
  intro path name mMembers hway hobject
  by_cases hne : name = []
  · exact Or.inl hne
  · right
    have hplace : call.place = path ++ [.key name] := by
      rw [place, hway, hobject, Storing.below, keyFor, if_neg hne]
      rfl
    rw [hplace, below_append] at hfound
    obtain ⟨container, hcontainer, hmember⟩ := Option.bind_eq_some_iff.mp hfound
    have hnames := (parse_names hparse).below_path hcontainer
    rw [below_cons] at hmember
    obtain ⟨child, hchild, -⟩ := Option.bind_eq_some_iff.mp hmember
    cases hnames with
    | object hkeys _ =>
        obtain ⟨hname, hclean⟩ := hkeys (name, child) (member_of_lookup hchild)
        exact hclean (nul_not_mem_stringify (call.stored_nulFree hway hne hname hvalue) _)
    | list _ => cases hchild
    | value _ => cases hchild

end Document.Call

open Document.Call in
/--
The string that is stored is read again, from the tree, from its copy and from
every printed text, exactly when unescaping leaves it alone and its name fits.
-/
theorem stored_string_kept_iff (document : Document) (call : document.Call)
    (s : {s : Text // '\x00' ∉ s}) :
    call.KeepsString s.val ↔ Unescaped s.val ∧ call.NameFits := by
  constructor
  · intro hkeeps
    have hstr := hkeeps.str_eq
    rw [stored_below] at hstr
    have hsame : Value.unEscapeString s.val = s.val := Option.some.inj hstr
    refine ⟨(unEscapeString_eq_iff s.val).mp hsame, ?_⟩
    obtain ⟨parsed, hparse, hread⟩ := hkeeps.parsed false _ (.refl _)
    obtain ⟨found, hfound, -⟩ := Option.map_eq_some_iff.mp hread
    refine call.nameFits_of_parsed hparse hfound (nul_not_mem_value ?_)
    rw [hsame]
    exact s.property
  · rintro ⟨hunescaped, hfits⟩
    have hsame := (unEscapeString_eq_iff s.val).mpr hunescaped
    have hbelow := call.stored_below s.val
    rw [hsame] at hbelow
    have hprintable := call.stored_printable (by rw [hsame]; exact s.property) hfits
    refine ⟨by rw [hbelow]; rfl, by rw [copy_eq hprintable, hbelow]; rfl,
      fun formatted printed hreordered => ?_⟩
    obtain ⟨mMembers, hobject⟩ := call.stored_object s.val
    have hdepth := (depth_reordered_le hreordered).trans_lt (call.stored_depth s.val)
    have hprintable' := nodeWise_printable.reordered hreordered hprintable
    rw [hobject] at hreordered
    cases printed with
    | Object mMembers' =>
        have hrestored := Restored.of_reordered hreordered (restored_restored hprintable')
        rw [← hobject] at hrestored
        obtain ⟨found, hfound, hvalue⟩ := hrestored.below_path hbelow
        refine ⟨_, parse_printed formatted hprintable' hdepth, ?_⟩
        rw [hfound]
        cases hvalue
        rfl
    | List mMembers' => cases hreordered
    | Value mValue mSubType => cases hreordered

/-- A document without members. -/
def emptyDocument : Document where
  mMembers := []
  printable := .object List.nodup_nil (List.forall_mem_nil _) (List.forall_mem_nil _)
  depth_lt := by decide

/-- `json.addValue(s, "path")` -/
def addPath : emptyDocument.Call where
  way := .addValue [] "path".toList
  found := .Object []
  found_eq := rfl
  takes := trivial

/-- The directory `C:\temp` comes back with a tabulator. -/
theorem windows_path_not_kept : ¬ addPath.KeepsString "C:\\temp".toList := by
  intro hkeeps
  have hstr := hkeeps.str_eq
  rw [Document.Call.stored_below] at hstr
  exact absurd (Option.some.inj hstr) (by decide)

end DumaisLib.JSON

import DumaisLib.JSON.Scanning
import DumaisLib.JSON.Tree

/-!
# The compact text of a document

The printed text without its white space is the compact text of the tree, in
which braces, brackets and quotes are balanced.
-/

namespace DumaisLib.JSON

open Machine DumaisLib.JSON.Parser

/-! ## Documents that can be printed -/

def numeric : ValueSubType → Bool
  | .Int => true
  | .UInt => true
  | .Double => true
  | _ => false

/-- The texts that a value of each type may have. -/
def PrintableValue (mValue : Text) : ValueSubType → Prop
  | .Bool => mValue = "true".toList ∨ mValue = "false".toList
  | .String => '\x00' ∉ mValue
  | .Illegal => '\x00' ∉ mValue
  | _ => parseNakedValue mValue = mValue ∧ numeric (validateNakedValue mValue) = true

/-- Keys can stand between quotes and are distinct, and values have texts of their types. -/
inductive Node.Printable : Node → Prop where
  | object {mMembers} : (mMembers.map Prod.fst).Nodup →
      (∀ member ∈ mMembers, member.1 ≠ [] ∧ Quotable false member.1) →
      (∀ member ∈ mMembers, member.2.Printable) → Node.Printable (.Object mMembers)
  | list {mMembers} : (∀ child ∈ mMembers, child.Printable) →
      Node.Printable (.List mMembers)
  | value {mValue mSubType} : PrintableValue mValue mSubType →
      Node.Printable (.Value mValue mSubType)

mutual

/-- The number of nodes on the longest path from the root. -/
def Node.depth : Node → Nat
  | .Object mMembers => depthMembers mMembers + 1
  | .List mMembers => depthElements mMembers + 1
  | .Value _ _ => 1

def depthMembers : List (Text × Node) → Nat
  | [] => 0
  | (_, child) :: members => max child.depth (depthMembers members)

def depthElements : List Node → Nat
  | [] => 0
  | child :: elements => max child.depth (depthElements elements)

end

mutual

/-- The text of the tree without white space. -/
def Node.compact : Node → Text
  | .Object mMembers => '\x7b' :: (compactMembers mMembers ++ ['\x7d'])
  | .List mMembers => '[' :: (compactElements mMembers ++ [']'])
  | .Value mValue mSubType => Value.stringify mValue mSubType

def compactMembers : List (Text × Node) → Text
  | [] => []
  | (key, child) :: members =>
      quoted key ++ (':' :: (child.compact ++
        ((if members.isEmpty then [] else [',']) ++ compactMembers members)))

def compactElements : List Node → Text
  | [] => []
  | child :: elements =>
      child.compact ++ ((if elements.isEmpty then [] else [',']) ++ compactElements elements)

end

/-- The type with which a printed value comes back. -/
def restoredType (mValue : Text) : ValueSubType → ValueSubType
  | .Illegal => .String
  | .String => .String
  | .Bool => .Bool
  | _ => validateNakedValue mValue

mutual

/-- The tree that comes back. -/
def Node.restored : Node → Node
  | .Object mMembers => .Object (restoredMembers mMembers)
  | .List mMembers => .List (restoredElements mMembers)
  | .Value mValue mSubType => .Value mValue (restoredType mValue mSubType)

def restoredMembers : List (Text × Node) → List (Text × Node)
  | [] => []
  | (key, child) :: members => (key, child.restored) :: restoredMembers members

def restoredElements : List Node → List Node
  | [] => []
  | child :: elements => child.restored :: restoredElements elements

end

/-! ## Printed values -/

theorem naked_ne {char other : Char} (hnaked : isNaked char = true)
    (hother : isNaked other = false) : char ≠ other := by
  rintro rfl
  rw [hnaked] at hother
  cases hother

theorem naked_not_space {char : Char} (hnaked : isNaked char = true) : isSpace char = false := by
  simp only [isSpace, Bool.or_eq_false_iff, decide_eq_false_iff_not]
  exact ⟨⟨⟨naked_ne hnaked rfl, naked_ne hnaked rfl⟩, naked_ne hnaked rfl⟩, naked_ne hnaked rfl⟩

/-- The text that the parser keeps of a printed value. -/
def keptText (mValue : Text) : ValueSubType → Text
  | .Illegal => Value.escapeString mValue
  | .String => Value.escapeString mValue
  | _ => mValue

/-- The two ways in which a value is printed. -/
theorem printed_cases {mValue : Text} {mSubType : ValueSubType}
    (hvalue : PrintableValue mValue mSubType) :
    ('\x00' ∉ mValue ∧ Value.stringify mValue mSubType = quoted (Value.escapeString mValue) ∧
        keptText mValue mSubType = Value.escapeString mValue ∧
        restoredType mValue mSubType = .String) ∨
      (parseNakedValue mValue = mValue ∧ Value.stringify mValue mSubType = mValue ∧
        keptText mValue mSubType = mValue ∧
        validateNakedValue mValue = restoredType mValue mSubType ∧
        (restoredType mValue mSubType = .Bool ∧ mValue.toLower = mValue ∨
          numeric (restoredType mValue mSubType) = true)) := by
  cases mSubType with
  | Illegal => exact Or.inl ⟨hvalue, rfl, rfl, rfl⟩
  | String => exact Or.inl ⟨hvalue, rfl, rfl, rfl⟩
  | Bool =>
      apply Or.inr
      rcases hvalue with rfl | rfl
      · exact ⟨by decide, rfl, rfl, by decide, Or.inl ⟨rfl, by decide⟩⟩
      · exact ⟨by decide, rfl, rfl, by decide, Or.inl ⟨rfl, by decide⟩⟩
  | Double => exact Or.inr ⟨hvalue.1, rfl, rfl, rfl, Or.inr hvalue.2⟩
  | Int => exact Or.inr ⟨hvalue.1, rfl, rfl, rfl, Or.inr hvalue.2⟩
  | UInt => exact Or.inr ⟨hvalue.1, rfl, rfl, rfl, Or.inr hvalue.2⟩

theorem legal_of_cases {mValue : Text} {nrv : ValueSubType}
    (hcases : nrv = .Bool ∧ mValue.toLower = mValue ∨ numeric nrv = true) : nrv ≠ .Illegal := by
  rintro rfl
  rcases hcases with ⟨hbool, _⟩ | hnumeric
  · cases hbool
  · cases hnumeric

theorem naked_of_parse {mValue : Text} (hnaked : parseNakedValue mValue = mValue) :
    ∀ char ∈ mValue, isNaked char = true :=
  List.takeWhile_eq_self_iff.mp hnaked

theorem ne_nil_of_validate {mValue : Text} {nrv : ValueSubType}
    (hvalid : validateNakedValue mValue = nrv) (hlegal : nrv ≠ .Illegal) : mValue ≠ [] := by
  rintro rfl
  exact hlegal hvalid.symm

/-! ## White space in the printed text -/

theorem strips_lineEnd (level : Int) : Strips (lineEnd level) [] := by
  rw [lineEnd]
  split
  · exact strips_nil
  · exact strips_spaces (List.all_eq_true.mp rfl)

theorem strips_tabs (level : Int) : Strips (tabs level) [] := by
  apply strips_spaces
  intro char hchar
  rw [List.eq_of_mem_replicate hchar]
  decide

theorem strips_char {char : Char} (hquote : char ≠ '"') (hspace : isSpace char = false) :
    Strips [char] [char] :=
  strips_plain fun other hother => by
    obtain rfl := List.mem_singleton.mp hother
    exact ⟨hquote, hspace⟩

theorem strips_separator (last : Bool) :
    Strips (if last then [] else [',']) (if last then [] else [',']) := by
  cases last with
  | false => exact strips_char (by decide) (by decide)
  | true => exact strips_nil

theorem strips_value {mValue : Text} {mSubType : ValueSubType}
    (hvalue : PrintableValue mValue mSubType) :
    Strips (Value.stringify mValue mSubType) (Value.stringify mValue mSubType) := by
  rcases printed_cases hvalue with ⟨hnul, hprinted, _⟩ | ⟨hnaked, hprinted, _⟩
  · rw [hprinted]
    exact strips_quoted (quotable_escapeString hnul)
  · rw [hprinted]
    apply strips_plain
    intro char hchar
    have hchar := naked_of_parse hnaked char hchar
    exact ⟨naked_ne hchar rfl, naked_not_space hchar⟩

theorem strips_members {mMembers : List (Text × Node)}
    (hkeys : ∀ member ∈ mMembers, Quotable false member.1)
    (hchildren : ∀ member ∈ mMembers, ∀ level,
      Strips (member.2.stringify level) member.2.compact) (level : Int) :
    Strips (stringifyMembers level mMembers) (compactMembers mMembers) := by
  induction mMembers with
  | nil => exact strips_nil
  | cons member members ih =>
      obtain ⟨key, child⟩ := member
      have hkey := strips_quoted (hkeys (key, child) List.mem_cons_self)
      have hchild := hchildren (key, child) List.mem_cons_self (below level)
      have hrest := ih (fun later hlater => hkeys later (List.mem_cons_of_mem _ hlater))
        fun later hlater => hchildren later (List.mem_cons_of_mem _ hlater)
      have hcolon : Strips " : ".toList [':'] :=
        (show Strips [' '] [] from strips_spaces (List.all_eq_true.mp rfl)).append
          ((strips_char (by decide) (by decide)).append (strips_spaces (List.all_eq_true.mp rfl)))
      have hall := (strips_tabs level).append (hkey.append (hcolon.append (hchild.append
        ((strips_separator members.isEmpty).append ((strips_lineEnd level).append hrest)))))
      have htext : stringifyMembers level ((key, child) :: members) =
          tabs level ++ (quoted key ++ (" : ".toList ++ (child.stringify (below level) ++
            ((if members.isEmpty then [] else [',']) ++
              (lineEnd level ++ stringifyMembers level members))))) := by
        simp [stringifyMembers, quoted]
      rw [htext]
      exact hall

theorem strips_elements {mMembers : List Node}
    (hchildren : ∀ child ∈ mMembers, ∀ level, Strips (child.stringify level) child.compact)
    (level : Int) : Strips (stringifyElements level mMembers) (compactElements mMembers) := by
  induction mMembers with
  | nil => exact strips_nil
  | cons child elements ih =>
      have hchild := hchildren child List.mem_cons_self (below level)
      have hrest := ih fun later hlater => hchildren later (List.mem_cons_of_mem _ hlater)
      exact (strips_tabs level).append (hchild.append
        ((strips_separator elements.isEmpty).append ((strips_lineEnd level).append hrest)))

/-- Without its white space the printed text is the compact one, at every level. -/
theorem strips_stringify {node : Node} (hprintable : node.Printable) (level : Int) :
    Strips (node.stringify level) node.compact := by
  induction node using Node.children_induction generalizing level with
  | object mMembers ih =>
      cases hprintable with
      | object _ hkeys hchildren =>
          have hmembers := strips_members (fun member hmember => (hkeys member hmember).2)
            (fun member hmember level => ih member hmember (hchildren member hmember) level) level
          exact (strips_char (by decide) (by decide)).append ((strips_lineEnd level).append
            (hmembers.append ((strips_tabs (level - 1)).append
              (strips_char (by decide) (by decide)))))
  | list mMembers ih =>
      cases hprintable with
      | list hchildren =>
          have helements := strips_elements
            (fun child hchild level => ih child hchild (hchildren child hchild) level) level
          exact (strips_char (by decide) (by decide)).append ((strips_lineEnd level).append
            (helements.append ((strips_tabs (level - 1)).append
              (strips_char (by decide) (by decide)))))
  | value mValue mSubType =>
      cases hprintable with
      | value hvalue => exact strips_value hvalue

theorem removeSpaces_stringify {node : Node} (hprintable : node.Printable) (level : Int) :
    removeSpaces (node.stringify level) = node.compact := by
  have hstrips := strips_stringify hprintable level []
  rw [List.append_nil] at hstrips
  rw [removeSpaces, hstrips]
  simp [removeSpacesFrom]

/-! ## Levels in the compact text -/

/-- The pairs of characters that are scanned for. -/
def IsPair (opening closing : Char) : Prop :=
  opening = '\x7b' ∧ closing = '\x7d' ∨ opening = '[' ∧ closing = ']'

section Levels

variable {opening closing : Char} {height : Nat}

theorem passes_value (hpair : IsPair opening closing) {mValue : Text} {mSubType : ValueSubType}
    (hvalue : PrintableValue mValue mSubType) :
    Passes opening closing height (Value.stringify mValue mSubType) := by
  rcases printed_cases hvalue with ⟨hnul, hprinted, _⟩ | ⟨hnaked, hprinted, _⟩
  · rw [hprinted]
    exact passes_quoted (quotable_escapeString hnul)
  · rw [hprinted]
    apply passes_plain
    intro char hchar
    have hchar := naked_of_parse hnaked char hchar
    refine ⟨naked_ne hchar rfl, naked_ne hchar rfl, ?_⟩
    rcases hpair with ⟨rfl, rfl⟩ | ⟨rfl, rfl⟩
    · exact ⟨naked_ne hchar rfl, naked_ne hchar rfl⟩
    · exact ⟨naked_ne hchar rfl, naked_ne hchar rfl⟩

theorem passes_colon (hpair : IsPair opening closing) : Passes opening closing height [':'] := by
  rcases hpair with ⟨rfl, rfl⟩ | ⟨rfl, rfl⟩
  · exact passes_char (by decide)
  · exact passes_char (by decide)

theorem passes_separator (hpair : IsPair opening closing) (last : Bool) :
    Passes opening closing height (if last then [] else [',']) := by
  cases last with
  | false =>
      rcases hpair with ⟨rfl, rfl⟩ | ⟨rfl, rfl⟩
      · exact passes_char (by decide)
      · exact passes_char (by decide)
  | true => exact passes_nil

theorem passes_members (hpair : IsPair opening closing) {mMembers : List (Text × Node)}
    (hkeys : ∀ member ∈ mMembers, Quotable false member.1)
    (hchildren : ∀ member ∈ mMembers, Passes opening closing member.2.depth member.2.compact) :
    Passes opening closing (depthMembers mMembers) (compactMembers mMembers) := by
  induction mMembers with
  | nil => exact passes_nil
  | cons member members ih =>
      obtain ⟨key, child⟩ := member
      have hkey := hkeys (key, child) List.mem_cons_self
      have hchild := hchildren (key, child) List.mem_cons_self
      have hrest := ih (fun later hlater => hkeys later (List.mem_cons_of_mem _ hlater))
        fun later hlater => hchildren later (List.mem_cons_of_mem _ hlater)
      rw [depthMembers, compactMembers]
      exact (passes_quoted hkey).append ((passes_colon hpair).append
        ((hchild.mono (le_max_left _ _)).append ((passes_separator hpair _).append
          (hrest.mono (le_max_right _ _)))))

theorem passes_elements (hpair : IsPair opening closing) {mMembers : List Node}
    (hchildren : ∀ child ∈ mMembers, Passes opening closing child.depth child.compact) :
    Passes opening closing (depthElements mMembers) (compactElements mMembers) := by
  induction mMembers with
  | nil => exact passes_nil
  | cons child elements ih =>
      have hchild := hchildren child List.mem_cons_self
      have hrest := ih fun later hlater => hchildren later (List.mem_cons_of_mem _ hlater)
      rw [depthElements, compactElements]
      exact (hchild.mono (le_max_left _ _)).append ((passes_separator hpair _).append
        (hrest.mono (le_max_right _ _)))

theorem passes_between {first last : Char} {text : Text}
    (hfirst : Passes opening closing height [first]) (hpasses : Passes opening closing height text)
    (hlast : Passes opening closing height [last]) :
    Passes opening closing height (first :: (text ++ [last])) :=
  hfirst.append (hpasses.append hlast)

/-- A pair of either kind around a text that is passed. -/
theorem passes_pair (hpair : IsPair opening closing) {first last : Char}
    (hother : IsPair first last) {text : Text} (hpasses : Passes opening closing height text) :
    Passes opening closing (height + 1) (first :: (text ++ [last])) := by
  have hhigher := hpasses.mono (Nat.le_succ height)
  rcases hpair with ⟨rfl, rfl⟩ | ⟨rfl, rfl⟩
  · rcases hother with ⟨rfl, rfl⟩ | ⟨rfl, rfl⟩
    · exact passes_enclosed curly_brackets hpasses
    · exact passes_between (passes_char (by decide)) hhigher (passes_char (by decide))
  · rcases hother with ⟨rfl, rfl⟩ | ⟨rfl, rfl⟩
    · exact passes_between (passes_char (by decide)) hhigher (passes_char (by decide))
    · exact passes_enclosed square_brackets hpasses

theorem passes_compact (hpair : IsPair opening closing) {node : Node}
    (hprintable : node.Printable) : Passes opening closing node.depth node.compact := by
  induction node using Node.children_induction with
  | object mMembers ih =>
      cases hprintable with
      | object _ hkeys hchildren =>
          rw [Node.depth, Node.compact]
          exact passes_pair hpair (Or.inl ⟨rfl, rfl⟩) (passes_members hpair
            (fun member hmember => (hkeys member hmember).2)
            fun member hmember => ih member hmember (hchildren member hmember))
  | list mMembers ih =>
      cases hprintable with
      | list hchildren =>
          rw [Node.depth, Node.compact]
          exact passes_pair hpair (Or.inr ⟨rfl, rfl⟩) (passes_elements hpair
            fun child hchild => ih child hchild (hchildren child hchild))
  | value mValue mSubType =>
      cases hprintable with
      | value hvalue => exact passes_value hpair hvalue

end Levels

/-! ## Pieces of the compact text -/

section Pieces

variable {holds : Text → Prop} (hnil : holds [])
  (happend : ∀ text text', holds text → holds text' → holds (text ++ text'))
  (hquoted : ∀ key, Quotable false key → holds (quoted key))
  (hvalue : ∀ mValue mSubType, PrintableValue mValue mSubType →
    holds (Value.stringify mValue mSubType))
  (hchar : ∀ char ∈ "\x7b\x7d[]:,".toList, holds [char])

include hnil happend hquoted hvalue hchar

/-- What holds of the pieces, and of two texts together, holds of the compact text. -/
theorem compact_of_pieces {node : Node} (hprintable : node.Printable) : holds node.compact := by
  have hseparator (last : Bool) : holds (if last then [] else [',']) := by
    cases last with
    | false => exact hchar ',' (by decide)
    | true => exact hnil
  induction node using Node.children_induction with
  | object mMembers ih =>
      cases hprintable with
      | object _ hkeys hchildren =>
          refine happend _ _ (hchar '\x7b' (by decide)) (happend _ _ ?_ (hchar '\x7d' (by decide)))
          induction mMembers with
          | nil => exact hnil
          | cons member members ihmembers =>
              obtain ⟨key, child⟩ := member
              have hkey := (hkeys (key, child) List.mem_cons_self).2
              have hchild := ih (key, child) List.mem_cons_self
                (hchildren (key, child) List.mem_cons_self)
              have hrest := ihmembers (fun later hlater => ih later (List.mem_cons_of_mem _ hlater))
                (List.nodup_cons.mp ‹_›).2
                (fun later hlater => hkeys later (List.mem_cons_of_mem _ hlater))
                fun later hlater => hchildren later (List.mem_cons_of_mem _ hlater)
              rw [compactMembers]
              exact happend _ _ (hquoted key hkey) (happend _ _ (hchar ':' (by decide))
                (happend _ _ hchild (happend _ _ (hseparator _) hrest)))
  | list mMembers ih =>
      cases hprintable with
      | list hchildren =>
          refine happend _ _ (hchar '[' (by decide)) (happend _ _ ?_ (hchar ']' (by decide)))
          induction mMembers with
          | nil => exact hnil
          | cons child elements ihelements =>
              have hchild := ih child List.mem_cons_self (hchildren child List.mem_cons_self)
              have hrest := ihelements
                (fun later hlater => ih later (List.mem_cons_of_mem _ hlater))
                fun later hlater => hchildren later (List.mem_cons_of_mem _ hlater)
              rw [compactElements]
              exact happend _ _ hchild (happend _ _ (hseparator _) hrest)
  | value mValue mSubType =>
      cases hprintable with
      | value hprinted => exact hvalue mValue mSubType hprinted

end Pieces

theorem nul_not_mem_quoted {text : Text} (hquotable : Quotable false text) :
    '\x00' ∉ quoted text := by
  have hnul := nul_not_mem_of_quotable hquotable
  simp [quoted, hnul]

theorem nul_not_mem_value {mValue : Text} {mSubType : ValueSubType}
    (hvalue : PrintableValue mValue mSubType) : '\x00' ∉ Value.stringify mValue mSubType := by
  rcases printed_cases hvalue with ⟨hnul, hprinted, _⟩ | ⟨hnaked, hprinted, _⟩
  · rw [hprinted]
    exact nul_not_mem_quoted (quotable_escapeString hnul)
  · rw [hprinted]
    intro hmem
    exact naked_ne (naked_of_parse hnaked _ hmem) rfl rfl

theorem nul_not_mem_compact {node : Node} (hprintable : node.Printable) :
    '\x00' ∉ node.compact :=
  @compact_of_pieces (fun text => '\x00' ∉ text) List.not_mem_nil
    (fun _ _ hfirst hsecond hmem => (List.mem_append.mp hmem).elim hfirst hsecond)
    (fun _ hkey => nul_not_mem_quoted hkey) (fun _ _ hvalue => nul_not_mem_value hvalue)
    (fun _ hchar hnul => absurd (List.mem_singleton.mp hnul ▸ hchar) (by decide)) _ hprintable

end DumaisLib.JSON

import Mathlib.Algebra.Order.Group.Multiset
import Mathlib.Data.Multiset.Range
import Mathlib.Data.Multiset.UnionInter
import Mathlib.Logic.Function.Basic

/-!
# Forests in a store

A store has cells at addresses.  A tree lies in a store when its cell is there
and its children lie at the addresses that the cell names.  The cells below
different addresses are counted apart, so that a store whose cells are each owned
once has no cell in two trees.
-/

namespace Forest

variable {Cell Tree : Type*} {Shape : Nat → Cell → Tree → List Nat → List Tree → Prop}
variable {store store' store'' : Nat → Option Cell} {address : Nat} {cell : Cell} {tree : Tree}
variable {addresses others parts : List Nat} {trees more children : List Tree}
variable {print rest outer : Multiset Nat} {leaked leaked' : Nat}

/--
The trees lie at the addresses, and `print` has the addresses of all their cells.
The shape says which cell stands for which tree, and where the children are.
-/
inductive Holds (Shape : Nat → Cell → Tree → List Nat → List Tree → Prop)
    (store : Nat → Option Cell) : List Nat → List Tree → Multiset Nat → Prop where
  | nil : Holds Shape store [] [] 0
  | cons {address : Nat} {cell : Cell} {tree : Tree} {parts : List Nat} {children : List Tree}
      {addresses : List Nat} {trees : List Tree} {below beside : Multiset Nat} :
      store address = some cell → Shape address cell tree parts children →
      Holds Shape store parts children below → Holds Shape store addresses trees beside →
      Holds Shape store (address :: addresses) (tree :: trees) (address ::ₘ (below + beside))

theorem set_of_getElem? {α : Type*} {items : List α} {i : Nat} {item : α}
    (hitem : items[i]? = some item) : items.set i item = items := by
  obtain ⟨hlt, rfl⟩ := List.getElem?_eq_some_iff.mp hitem
  exact List.set_getElem_self hlt

/-- Stores that agree on some cells and on others. -/
theorem agree_add : (∀ other ∈ print + rest, store' other = store other) ↔
    (∀ other ∈ print, store' other = store other) ∧ ∀ other ∈ rest, store' other = store other := by
  simp only [Multiset.mem_add, or_imp, forall_and]

theorem agree_cons : (∀ other ∈ address ::ₘ rest, store' other = store other) ↔
    store' address = store address ∧ ∀ other ∈ rest, store' other = store other := by
  simp only [Multiset.mem_cons, or_imp, forall_and, forall_eq]

/-! ## Trees where they lie -/

theorem Holds.single {below : Multiset Nat} (hcell : store address = some cell)
    (hshape : Shape address cell tree parts children)
    (hbelow : Holds Shape store parts children below) :
    Holds Shape store [address] [tree] (address ::ₘ below) := by
  have hholds := Holds.cons hcell hshape hbelow .nil
  rwa [add_zero] at hholds

theorem Holds.single_cases (hholds : Holds Shape store [address] [tree] print) :
    ∃ cell parts children below, store address = some cell ∧
      Shape address cell tree parts children ∧ Holds Shape store parts children below ∧
      print = address ::ₘ below := by
  cases hholds with
  | cons hcell hshape hbelow hbeside =>
      cases hbeside
      exact ⟨_, _, _, _, hcell, hshape, hbelow, by rw [add_zero]⟩

/-- A forest lies in every store that agrees on its cells. -/
theorem Holds.frame (hholds : Holds Shape store addresses trees print)
    (hsame : ∀ address ∈ print, store' address = store address) :
    Holds Shape store' addresses trees print := by
  induction hholds with
  | nil => exact .nil
  | cons hcell hshape _ _ ihbelow ihbeside =>
      obtain ⟨hroot, hothers⟩ := agree_cons.mp hsame
      obtain ⟨hbelow, hbeside⟩ := agree_add.mp hothers
      exact .cons (hroot.trans hcell) hshape (ihbelow hbelow) (ihbeside hbeside)

theorem Holds.length_eq (hholds : Holds Shape store addresses trees print) :
    addresses.length = trees.length := by
  induction hholds with
  | nil => rfl
  | cons _ _ _ _ _ ihbeside => rw [List.length_cons, List.length_cons, ihbeside]

theorem Holds.append (hholds : Holds Shape store addresses trees print)
    (hmore : Holds Shape store others more rest) :
    Holds Shape store (addresses ++ others) (trees ++ more) (print + rest) := by
  induction hholds with
  | nil => rwa [zero_add]
  | cons hcell hshape hbelow _ _ ihbeside =>
      rw [Multiset.cons_add, add_assoc]
      exact .cons hcell hshape hbelow ihbeside

/-- The number of cells, by a count that takes every tree apart into its children. -/
theorem Holds.card_eq {count : List Tree → Nat} (hnil : count [] = 0)
    (hcons : ∀ {address cell tree parts children}, Shape address cell tree parts children →
      ∀ trees, count (tree :: trees) = count children + count trees + 1)
    (hholds : Holds Shape store addresses trees print) : print.card = count trees := by
  induction hholds with
  | nil => exact hnil.symm
  | cons _ hshape _ _ ihbelow ihbeside =>
      rw [Multiset.card_cons, Multiset.card_add, ihbelow, ihbeside, hcons hshape]

/-! ## Forests with a hole -/

/--
A tree at the address completes the forest, in every store that agrees on the
cells around it.
-/
def Completes (Shape : Nat → Cell → Tree → List Nat → List Tree → Prop)
    (store : Nat → Option Cell) (address : Nat) (tree : Tree) (addresses : List Nat)
    (trees : List Tree) (outer : Multiset Nat) : Prop :=
  ∀ store' print, (∀ other ∈ outer, store' other = store other) →
    Holds Shape store' [address] [tree] print → Holds Shape store' addresses trees (print + outer)

theorem Completes.self (store : Nat → Option Cell) (address : Nat) (tree : Tree) :
    Completes Shape store address tree [address] [tree] 0 := by
  intro store' print _ hholds
  rwa [add_zero]

theorem Completes.trans {inner : Multiset Nat} {other : Nat} {whole : Tree}
    (hinner : Completes Shape store address tree [other] [whole] inner)
    (houter : Completes Shape store other whole addresses trees outer) :
    Completes Shape store address tree addresses trees (inner + outer) := by
  intro store' print hsame hholds
  obtain ⟨hclose, hfar⟩ := agree_add.mp hsame
  rw [← add_assoc]
  exact houter store' _ hfar (hinner store' print hclose hholds)

/-- The hole is below the cell of a tree. -/
theorem Completes.below {whole : Tree} {other : Nat} (hcell : store other = some cell)
    (hshape : Shape other cell whole parts children)
    (hparts : Completes Shape store address tree parts children outer) :
    Completes Shape store address tree [other] [whole] (other ::ₘ outer) := by
  intro store' print hsame hholds
  obtain ⟨hroot, hothers⟩ := agree_cons.mp hsame
  rw [Multiset.add_cons]
  exact .single (hroot.trans hcell) hshape (hparts store' print hothers hholds)

/-- The hole is behind all other trees. -/
theorem Holds.completes_append (hholds : Holds Shape store addresses trees print) (address : Nat)
    (tree : Tree) :
    Completes Shape store address tree (addresses ++ [address]) (trees ++ [tree]) print := by
  intro store' inner hsame hinner
  rw [add_comm]
  exact (hholds.frame hsame).append hinner

/-- The first tree of a forest, and the others. -/
theorem Holds.cons_cases (hholds : Holds Shape store (address :: addresses) (tree :: trees) print) :
    ∃ own beside, print = own + beside ∧ Holds Shape store [address] [tree] own ∧
      Holds Shape store addresses trees beside := by
  cases hholds with
  | cons hcell hshape hbelow hbeside =>
      exact ⟨_, _, (Multiset.cons_add _ _ _).symm, .single hcell hshape hbelow, hbeside⟩

/-- A forest and one of its trees, in whose place any other tree can be put. -/
theorem Holds.at (hholds : Holds Shape store addresses trees print) {i : Nat}
    (htree : trees[i]? = some tree) :
    ∃ address inner outer, addresses[i]? = some address ∧ print = inner + outer ∧
      Holds Shape store [address] [tree] inner ∧
      Holds Shape store (addresses.eraseIdx i) (trees.eraseIdx i) outer ∧
      ∀ address' tree',
        Completes Shape store address' tree' (addresses.set i address') (trees.set i tree') outer := by
  induction trees generalizing addresses print i with
  | nil => cases htree
  | cons first trees ih =>
      obtain _ | ⟨address, addresses⟩ := addresses
      · cases hholds
      obtain ⟨own, beside, rfl, hfirst, hbeside⟩ := hholds.cons_cases
      cases i with
      | zero =>
          obtain rfl := Option.some.inj htree
          refine ⟨address, own, beside, rfl, rfl, hfirst, hbeside, fun address' tree' => ?_⟩
          intro store' print hsame hnew
          exact hnew.append (hbeside.frame hsame)
      | succ i =>
          obtain ⟨found, inner, outer, haddress, rfl, hinner, hrest, hcompletes⟩ := ih hbeside htree
          refine ⟨found, inner, own + outer, haddress, add_left_comm own inner outer, hinner,
            hfirst.append hrest, fun address' tree' => ?_⟩
          intro store' print hsame hnew
          obtain ⟨hown, hothers⟩ := agree_add.mp hsame
          rw [add_left_comm]
          exact (hfirst.frame hown).append (hcompletes address' tree' store' print hothers hnew)

/-- Two trees of a forest, in whose places any other two can be put. -/
theorem Holds.at_two (hholds : Holds Shape store addresses trees print) {i j : Nat} (hne : i ≠ j)
    {tree' : Tree} (htree : trees[i]? = some tree) (htree' : trees[j]? = some tree') :
    ∃ address address' inner inner' outer, addresses[i]? = some address ∧
      addresses[j]? = some address' ∧ print = inner + (inner' + outer) ∧
      Holds Shape store [address] [tree] inner ∧ Holds Shape store [address'] [tree'] inner' ∧
      ∀ store' new new' print' print'', (∀ other ∈ outer, store' other = store other) →
        Holds Shape store' [address] [new] print' → Holds Shape store' [address'] [new'] print'' →
        Holds Shape store' addresses ((trees.set i new).set j new') (print' + (print'' + outer)) := by
  induction trees generalizing addresses print i j with
  | nil => cases htree
  | cons first trees ih =>
      obtain _ | ⟨address, addresses⟩ := addresses
      · cases hholds
      obtain ⟨own, beside, rfl, hfirst, hbeside⟩ := hholds.cons_cases
      cases i with
      | zero =>
          cases j with
          | zero => exact absurd rfl hne
          | succ j =>
              obtain rfl := Option.some.inj htree
              obtain ⟨found, inner, outer, hfound, rfl, hinner, -, hcompletes⟩ := hbeside.at htree'
              refine ⟨address, found, own, inner, outer, rfl, hfound, rfl, hfirst, hinner, ?_⟩
              intro store' new new' print' print'' hsame hnew hnew'
              have hbehind := hcompletes found new' store' print'' hsame hnew'
              rw [set_of_getElem? hfound] at hbehind
              exact hnew.append hbehind
      | succ i =>
          cases j with
          | zero =>
              obtain rfl := Option.some.inj htree'
              obtain ⟨found, inner, outer, hfound, rfl, hinner, -, hcompletes⟩ := hbeside.at htree
              refine ⟨found, address, inner, own, outer, hfound, rfl, add_left_comm own inner outer,
                hinner, hfirst, ?_⟩
              intro store' new new' print' print'' hsame hnew hnew'
              have hbehind := hcompletes found new store' print' hsame hnew
              rw [set_of_getElem? hfound] at hbehind
              rw [add_left_comm]
              exact hnew'.append hbehind
          | succ j =>
              obtain ⟨found, found', inner, inner', outer, hfound, hfound', rfl, hinner, hinner',
                hput⟩ := ih hbeside (fun heq => hne (congrArg (· + 1) heq)) htree htree'
              refine ⟨found, found', inner, inner', own + outer, hfound, hfound', ?_, hinner,
                hinner', ?_⟩
              · rw [add_left_comm own inner, add_left_comm own inner']
              · intro store' new new' print' print'' hsame hnew hnew'
                obtain ⟨hown, hothers⟩ := agree_add.mp hsame
                rw [add_left_comm print'' own, add_left_comm print' own]
                exact (hfirst.frame hown).append
                  (hput store' new new' print' print'' hothers hnew hnew')

/-! ## Cells in use -/

/-- Every cell that is there is owned once. -/
structure Owns (store : Nat → Option Cell) (cells : Multiset Nat) : Prop where
  nodup : cells.Nodup
  mem_iff : ∀ address, (store address).isSome ↔ address ∈ cells

section Owns

variable {cells : Multiset Nat}

theorem Owns.notMem (howns : Owns store cells) (hnone : store address = none) : address ∉ cells := by
  rw [← howns.mem_iff, hnone]
  exact Bool.false_ne_true

theorem Owns.write (howns : Owns store cells) (hmem : address ∈ cells) (cell : Cell) :
    Owns (Function.update store address (some cell)) cells where
  nodup := howns.nodup
  mem_iff other := by
    by_cases heq : other = address
    · subst heq
      simp [hmem]
    · rw [Function.update_of_ne heq, howns.mem_iff]

theorem Owns.alloc (howns : Owns store cells) (hnone : store address = none) (cell : Cell) :
    Owns (Function.update store address (some cell)) (address ::ₘ cells) where
  nodup := Multiset.nodup_cons.mpr ⟨howns.notMem hnone, howns.nodup⟩
  mem_iff other := by
    by_cases heq : other = address
    · subst heq
      simp
    · rw [Function.update_of_ne heq, howns.mem_iff, Multiset.mem_cons, or_iff_right heq]

theorem Owns.free (howns : Owns store (address ::ₘ cells)) :
    Owns (Function.update store address none) cells where
  nodup := (Multiset.nodup_cons.mp howns.nodup).2
  mem_iff other := by
    by_cases heq : other = address
    · subst heq
      simp [(Multiset.nodup_cons.mp howns.nodup).1]
    · rw [Function.update_of_ne heq, howns.mem_iff, Multiset.mem_cons, or_iff_right heq]

/-- The cells of a list are as many as there are entries that are not empty. -/
theorem Owns.card_eq {items : List (Option Cell)}
    (howns : Owns (fun address => items[address]?.join) cells) :
    cells.card = items.countP Option.isSome := by
  have hitems : (List.range items.length).map (fun address => items[address]?.join) = items := by
    refine List.ext_getElem (by simp) fun i hi hi' => ?_
    simp [hi']
  have hcells : cells = ((List.range items.length).filter fun address =>
      (items[address]?.join).isSome : List Nat) := by
    refine (Multiset.Nodup.ext howns.nodup
      (Multiset.coe_nodup.mpr (List.nodup_range.filter _))).mpr fun address => ?_
    rw [← howns.mem_iff, Multiset.mem_coe, List.mem_filter, List.mem_range]
    refine ⟨fun hsome => ⟨?_, hsome⟩, And.right⟩
    by_contra hge
    rw [List.getElem?_eq_none (Nat.le_of_not_lt hge)] at hsome
    cases hsome
  rw [hcells, Multiset.coe_card, ← List.countP_eq_length_filter]
  conv_rhs => rw [← hitems, List.countP_map]
  rfl

end Owns

/-! ## What operations leave -/

/--
An operation that owned the cells it worked on, beside the `rest`, leaves trees
behind, and a number of cells that belong to none of them.  The rest is as it was.
-/
def Leaves (Shape : Nat → Cell → Tree → List Nat → List Tree → Prop)
    (store store' : Nat → Option Cell) (rest : Multiset Nat) (addresses : List Nat)
    (trees : List Tree) (leaked : Nat) : Prop :=
  ∃ print lost, Holds Shape store' addresses trees print ∧ Owns store' (print + (lost + rest)) ∧
    lost.card = leaked ∧ ∀ other ∈ rest, store' other = store other

theorem Holds.leaves (hholds : Holds Shape store addresses trees print)
    (howns : Owns store (print + rest)) : Leaves Shape store store rest addresses trees 0 :=
  ⟨print, 0, hholds, by rwa [zero_add], rfl, fun _ _ => rfl⟩

theorem Leaves.owns (hleaves : Leaves Shape store store' rest addresses trees leaked) :
    ∃ others, Owns store' (others + rest) := by
  obtain ⟨print, lost, -, howns, -⟩ := hleaves
  exact ⟨print + lost, by rwa [add_assoc]⟩

theorem Leaves.same (hleaves : Leaves Shape store store' rest addresses trees leaked) :
    ∀ other ∈ rest, store' other = store other := by
  obtain ⟨-, -, -, -, -, hsame⟩ := hleaves
  exact hsame

/-- An operation that came before has touched other cells only. -/
theorem Leaves.rebase (hleaves : Leaves Shape store' store'' rest addresses trees leaked)
    (hbefore : ∀ other ∈ rest, store' other = store other) :
    Leaves Shape store store'' rest addresses trees leaked := by
  obtain ⟨print, lost, hholds, howns, hlost, hsame⟩ := hleaves
  exact ⟨print, lost, hholds, howns, hlost,
    fun other hother => (hsame other hother).trans (hbefore other hother)⟩

/-- What is left completes a forest. -/
theorem Leaves.plug (hleaves : Leaves Shape store store' (outer + rest) [address] [tree] leaked)
    (hcompletes : Completes Shape store address tree addresses trees outer) :
    Leaves Shape store store' rest addresses trees leaked := by
  obtain ⟨print, lost, hholds, howns, hlost, hsame⟩ := hleaves
  obtain ⟨houter, hrest⟩ := agree_add.mp hsame
  refine ⟨print + outer, lost, hcompletes store' print houter hholds, ?_, hlost, hrest⟩
  rwa [add_left_comm lost, ← add_assoc] at howns

/-- Cells of the rest are given up. -/
theorem Leaves.lose {gone : Multiset Nat}
    (hleaves : Leaves Shape store store' (gone + rest) addresses trees leaked) :
    Leaves Shape store store' rest addresses trees (leaked + gone.card) := by
  obtain ⟨print, lost, hholds, howns, hlost, hsame⟩ := hleaves
  refine ⟨print, lost + gone, hholds, by rwa [add_assoc], ?_, (agree_add.mp hsame).2⟩
  rw [Multiset.card_add, hlost]

/-- Another operation makes more trees. -/
theorem Leaves.append (hfirst : Leaves Shape store store' rest addresses trees leaked)
    (hsecond : ∀ cells, Owns store' cells → Leaves Shape store' store'' cells others more leaked') :
    Leaves Shape store store'' rest (addresses ++ others) (trees ++ more) (leaked + leaked') := by
  obtain ⟨print, lost, hholds, howns, rfl, hsame⟩ := hfirst
  obtain ⟨print', lost', hholds', howns', rfl, hsame'⟩ := hsecond _ howns
  obtain ⟨hprint, hothers⟩ := agree_add.mp hsame'
  obtain ⟨-, hrest⟩ := agree_add.mp hothers
  refine ⟨print + print', lost + lost', (hholds.frame hprint).append hholds', ?_,
    Multiset.card_add _ _, fun other hother => (hrest other hother).trans (hsame other hother)⟩
  have hcells : print + print' + (lost + lost' + rest) =
      print' + (lost' + (print + (lost + rest))) := by
    ac_rfl
  rwa [hcells]

/-- Another operation makes more trees, and their cells are given up. -/
theorem Leaves.discard (hfirst : Leaves Shape store store' rest addresses trees leaked)
    (hsecond : ∀ cells, Owns store' cells → Leaves Shape store' store'' cells others more leaked')
    {count : Nat} (hcount : ∀ print, Holds Shape store'' others more print → print.card = count) :
    Leaves Shape store store'' rest addresses trees (leaked + (count + leaked')) := by
  obtain ⟨print, lost, hholds, howns, rfl, hsame⟩ := hfirst
  obtain ⟨print', lost', hholds', howns', rfl, hsame'⟩ := hsecond _ howns
  obtain ⟨hprint, hothers⟩ := agree_add.mp hsame'
  obtain ⟨-, hrest⟩ := agree_add.mp hothers
  refine ⟨print, lost + (print' + lost'), hholds.frame hprint, ?_, ?_,
    fun other hother => (hrest other hother).trans (hsame other hother)⟩
  · have hcells : print + (lost + (print' + lost') + rest) =
        print' + (lost' + (print + (lost + rest))) := by
      ac_rfl
    rwa [hcells]
  · rw [Multiset.card_add, Multiset.card_add, hcount print' hholds']

section Sequences

variable {σ : Type*} {cellsOf : σ → Nat → Option Cell} {result : σ → Prop}

/-- Another operation works on what the first one has left. -/
theorem Leaves.trans (hfirst : Leaves Shape store store' rest addresses trees leaked)
    (hsecond : ∀ print cells, Holds Shape store' addresses trees print → Owns store' (print + cells) →
      ∃ next, result next ∧ Leaves Shape store' (cellsOf next) cells others more leaked') :
    ∃ next, result next ∧ Leaves Shape store (cellsOf next) rest others more (leaked' + leaked) := by
  obtain ⟨print, lost, hholds, howns, rfl, hsame⟩ := hfirst
  obtain ⟨next, hnext, hleaves⟩ := hsecond print (lost + rest) hholds howns
  obtain ⟨print', lost', hholds', howns', hlost, hsame'⟩ := hleaves.lose
  exact ⟨next, hnext, print', lost', hholds', howns', hlost,
    fun other hother => (hsame' other hother).trans (hsame other hother)⟩

/-- Another operation works on cells of the rest, and makes nothing of them. -/
theorem Leaves.consume (hfirst : Leaves Shape store store' (print + rest) addresses trees leaked)
    (hsecond : ∀ cells, Owns store' (print + cells) →
      ∃ next, result next ∧ Leaves Shape store' (cellsOf next) cells [] [] 0) :
    ∃ next, result next ∧ Leaves Shape store (cellsOf next) rest addresses trees leaked := by
  obtain ⟨print', lost, hholds, howns, rfl, hsame⟩ := hfirst
  have hcells : print' + (lost + (print + rest)) = print + (print' + (lost + rest)) := by
    ac_rfl
  rw [hcells] at howns
  obtain ⟨next, hnext, none', gone, hnone, howns', hgone, hsame'⟩ := hsecond _ howns
  cases hnone
  rw [Multiset.card_eq_zero.mp hgone, zero_add, zero_add] at howns'
  obtain ⟨hprint, hothers⟩ := agree_add.mp hsame'
  obtain ⟨-, hrest⟩ := agree_add.mp hothers
  obtain ⟨-, hrest'⟩ := agree_add.mp hsame
  exact ⟨next, hnext, print', lost, hholds.frame hprint, howns', rfl,
    fun other hother => (hrest other hother).trans (hrest' other hother)⟩

end Sequences

/-- A cell of the rest is written, and becomes the root of the trees that are left. -/
theorem Leaves.write (hleaves : Leaves Shape store store' (address ::ₘ rest) parts children leaked)
    (hshape : Shape address cell tree parts children) :
    Leaves Shape store (Function.update store' address (some cell)) rest [address] [tree] leaked := by
  obtain ⟨print, lost, hholds, howns, hlost, hsame⟩ := hleaves
  have hcells : print + (lost + address ::ₘ rest) = address ::ₘ (print + (lost + rest)) := by
    rw [Multiset.add_cons, Multiset.add_cons]
  rw [hcells] at howns
  have hfresh := (Multiset.nodup_cons.mp howns.nodup).1
  simp only [Multiset.mem_add, not_or] at hfresh
  have hother {other : Nat} (hne : other ≠ address) :
      Function.update store' address (some cell) other = store' other :=
    Function.update_of_ne hne _ _
  refine ⟨address ::ₘ print, lost, .single (Function.update_self _ _ _) hshape
    (hholds.frame fun other hmem => hother fun heq => hfresh.1 (heq ▸ hmem)), ?_, hlost,
    fun other hmem => ?_⟩
  · rw [Multiset.cons_add]
    exact howns.write (Multiset.mem_cons_self _ _) cell
  · rw [hother fun heq => hfresh.2.2 (heq ▸ hmem)]
    exact hsame other (Multiset.mem_cons_of_mem hmem)

/-- A new cell becomes the root of the trees that are left. -/
theorem Leaves.alloc (hleaves : Leaves Shape store store' rest parts children leaked)
    (hnone : store' address = none) (hshape : Shape address cell tree parts children) :
    Leaves Shape store (Function.update store' address (some cell)) rest [address] [tree] leaked := by
  obtain ⟨print, lost, hholds, howns, hlost, hsame⟩ := hleaves
  have hfresh := howns.notMem hnone
  simp only [Multiset.mem_add, not_or] at hfresh
  have hother {other : Nat} (hne : other ≠ address) :
      Function.update store' address (some cell) other = store' other :=
    Function.update_of_ne hne _ _
  refine ⟨address ::ₘ print, lost, .single (Function.update_self _ _ _) hshape
    (hholds.frame fun other hmem => hother fun heq => hfresh.1 (heq ▸ hmem)), ?_, hlost,
    fun other hmem => ?_⟩
  · rw [Multiset.cons_add]
    exact howns.alloc hnone cell
  · rw [hother fun heq => hfresh.2.2 (heq ▸ hmem)]
    exact hsame other hmem

end Forest

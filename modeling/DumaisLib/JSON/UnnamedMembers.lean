import DumaisLib.JSON.StoredStrings

/-!
# Members added without a name

A call without a name puts its member under a key that no member has, so such
calls only ever make an object larger.
-/

namespace DumaisLib.JSON

open Machine

/-- The calls on one node, one after the other. -/
def addAll (additions : List Addition) (node : Node) : Node :=
  additions.foldl (fun node addition => Node.add addition node) node

/-- The members behind the calls. -/
def addMembers : List Addition → List (Text × Node) → List (Text × Node)
  | [], mMembers => mMembers
  | addition :: additions, mMembers =>
      addMembers additions (assign (keyFor addition.name mMembers) addition.node mMembers)

/-- The keys that the calls without a name generate, in their order. -/
def generatedKeys : List Addition → List (Text × Node) → List Text
  | [], _ => []
  | addition :: additions, mMembers =>
      (if addition.name = [] then [generateKey mMembers] else []) ++
        generatedKeys additions
          (assign (keyFor addition.name mMembers) addition.node mMembers)

variable {mMembers : List (Text × Node)}

theorem addAll_object (additions : List Addition) (mMembers : List (Text × Node)) :
    addAll additions (.Object mMembers) = .Object (addMembers additions mMembers) := by
  induction additions generalizing mMembers with
  | nil => rfl
  | cons addition additions ih => exact ih _

theorem generateKey_free (mMembers : List (Text × Node)) :
    generateKey mMembers ∉ mMembers.map Prod.fst := by
  obtain ⟨i, hkey, hfree⟩ := generateKey_eq mMembers
  rw [hkey]
  exact hfree

/-- The loop has found its key after one turn more than there are members. -/
theorem generateKey_finished (mMembers : List (Text × Node)) :
    loop (generateKeyTurn mMembers) (mMembers.length + 1) mMembers.length =
      .finished (generateKey mMembers) := by
  obtain ⟨tries, hle, hfree⟩ := exists_free_key (mMembers.map Prod.fst) mMembers.length
  rw [List.length_map] at hle
  obtain ⟨i, hloop, -⟩ := generateKey_loop hfree (Nat.lt_succ_of_le hle)
  rw [generateKey, hloop]
  rfl

theorem keyFor_unnamed {name : Text} (hname : name = []) (mMembers : List (Text × Node)) :
    keyFor name mMembers = generateKey mMembers :=
  if_pos hname

theorem assign_unnamed {addition : Addition} (hname : addition.name = [])
    (mMembers : List (Text × Node)) :
    assign (keyFor addition.name mMembers) addition.node mMembers =
      mMembers ++ [(generateKey mMembers, addition.node)] := by
  rw [keyFor_unnamed hname, assign_fresh (generateKey_free mMembers)]

/-- No call takes a key away. -/
theorem mem_keys_assign {key name : Text} (node : Node)
    (hmem : name = key ∨ name ∈ mMembers.map Prod.fst) :
    name ∈ (assign key node mMembers).map Prod.fst := by
  by_cases hkey : key ∈ mMembers.map Prod.fst
  · rw [map_fst_assign hkey]
    rcases hmem with rfl | hold
    · exact hkey
    · exact hold
  · rw [assign_fresh hkey, List.map_append]
    rcases hmem with rfl | hold
    · exact List.mem_append_right _ (List.mem_singleton_self _)
    · exact List.mem_append_left _ hold

/-- A generated key was no key of the object when the calls began. -/
theorem generatedKeys_fresh {additions : List Addition} {name : Text}
    (hname : name ∈ generatedKeys additions mMembers) : name ∉ mMembers.map Prod.fst := by
  induction additions generalizing mMembers with
  | nil => cases hname
  | cons addition additions ih =>
      rcases List.mem_append.mp hname with hfirst | hlater
      · split at hfirst
        · rw [List.mem_singleton.mp hfirst]
          exact generateKey_free mMembers
        · cases hfirst
      · exact fun hmem => ih hlater (mem_keys_assign _ (Or.inr hmem))

/-- No key is generated twice, whatever is added under names in between. -/
theorem generatedKeys_nodup (additions : List Addition) (mMembers : List (Text × Node)) :
    (generatedKeys additions mMembers).Nodup := by
  induction additions generalizing mMembers with
  | nil => exact List.nodup_nil
  | cons addition additions ih =>
      rw [generatedKeys]
      split
      · rename_i hname
        refine List.nodup_cons.mpr ⟨fun hmem => ?_, ih _⟩
        exact generatedKeys_fresh hmem
          (mem_keys_assign _ (Or.inl (keyFor_unnamed hname mMembers).symm))
      · exact ih _

theorem length_generatedKeys {additions : List Addition}
    (hunnamed : ∀ addition ∈ additions, addition.name = []) (mMembers : List (Text × Node)) :
    (generatedKeys additions mMembers).length = additions.length := by
  induction additions generalizing mMembers with
  | nil => rfl
  | cons addition additions ih =>
      obtain ⟨hname, hrest⟩ := List.forall_mem_cons.mp hunnamed
      rw [generatedKeys, if_pos hname, List.singleton_append, List.length_cons, ih hrest,
        List.length_cons]

/-- Calls without a name leave the members and add theirs. -/
theorem addMembers_unnamed {additions : List Addition}
    (hunnamed : ∀ addition ∈ additions, addition.name = []) (mMembers : List (Text × Node)) :
    addMembers additions mMembers =
      mMembers ++ (generatedKeys additions mMembers).zip (additions.map Addition.node) := by
  induction additions generalizing mMembers with
  | nil => exact (List.append_nil mMembers).symm
  | cons addition additions ih =>
      obtain ⟨hname, hrest⟩ := List.forall_mem_cons.mp hunnamed
      rw [addMembers, generatedKeys, if_pos hname, ih hrest, List.singleton_append, List.map_cons,
        List.zip_cons_cons, assign_unnamed hname, List.append_assoc, List.singleton_append]

theorem lookup_append_of_mem {name : Text} (hname : name ∈ mMembers.map Prod.fst)
    (added : List (Text × Node)) : (mMembers ++ added).lookup name = mMembers.lookup name := by
  obtain ⟨member, hmember, rfl⟩ := List.mem_map.mp hname
  have hsome : mMembers.lookup member.1 ≠ none := by
    intro hnone
    have hne := List.lookup_eq_none_iff.mp hnone member hmember
    exact (bne_iff_ne.mp hne) rfl
  obtain ⟨child, hchild⟩ := Option.ne_none_iff_exists'.mp hsome
  rw [List.lookup_append, hchild, Option.some_or]

/--
Within one turn more than the object has members the loop comes to a free key.
Each call without a name adds one member there, and any number of such calls
adds as many members, under different new names.
-/
theorem unnamed_members_added (mMembers : List (Text × Node)) :
    (loop (generateKeyTurn mMembers) (mMembers.length + 1) mMembers.length =
        .finished (generateKey mMembers) ∧
      generateKey mMembers ∉ mMembers.map Prod.fst) ∧
    (∀ addition : Addition, addition.name = [] →
      ∃ members, (Node.Object mMembers).add addition = .Object members ∧
        members.Perm (mMembers ++ [(generateKey mMembers, addition.node)]) ∧
        ∀ name ∈ mMembers.map Prod.fst, members.lookup name = mMembers.lookup name) ∧
    ∀ additions : List Addition, (∀ addition ∈ additions, addition.name = []) →
      ∃ (names : List Text) (members : List (Text × Node)),
        addAll additions (.Object mMembers) = .Object members ∧
        names.length = additions.length ∧ names.Nodup ∧
        (∀ name ∈ names, name ∉ mMembers.map Prod.fst) ∧
        members.Perm (mMembers ++ names.zip (additions.map Addition.node)) ∧
        ∀ name ∈ mMembers.map Prod.fst, members.lookup name = mMembers.lookup name := by
  refine ⟨⟨generateKey_finished mMembers, generateKey_free mMembers⟩, ?_, ?_⟩
  · intro addition hname
    refine ⟨mMembers ++ [(generateKey mMembers, addition.node)], ?_, List.Perm.refl _, ?_⟩
    · rw [Node.add, assign_unnamed hname]
    · intro name hmem
      exact lookup_append_of_mem hmem _
  · intro additions hunnamed
    refine ⟨generatedKeys additions mMembers, addMembers additions mMembers,
      addAll_object additions mMembers, length_generatedKeys hunnamed mMembers,
      generatedKeys_nodup additions mMembers, fun name hname => generatedKeys_fresh hname, ?_, ?_⟩
    · rw [addMembers_unnamed hunnamed]
    · intro name hmem
      rw [addMembers_unnamed hunnamed]
      exact lookup_append_of_mem hmem _

/-- `key1` and `key2` are taken when two members are added. -/
theorem unnamed_members_added_taken :
    ∃ (names : List Text) (members : List (Text × Node)),
      addAll [.addList [], .addObject []]
          (.Object [("key1".toList, .List []), ("key2".toList, .List [])]) = .Object members ∧
        names.length = 2 ∧ names.Nodup ∧ members.length = 4 := by
  obtain ⟨_, _, hmany⟩ :=
    unnamed_members_added [("key1".toList, .List []), ("key2".toList, .List [])]
  obtain ⟨names, members, hadd, hlength, hnodup, _, hperm, _⟩ :=
    hmany [.addList [], .addObject []] (by simp [Addition.name])
  refine ⟨names, members, hadd, hlength, hnodup, ?_⟩
  rw [hperm.length_eq, List.length_append, List.length_zip, hlength]
  rfl

end DumaisLib.JSON

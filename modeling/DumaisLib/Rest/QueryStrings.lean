import DumaisLib.Rest.RESTParameters

/-!
# Query strings

A query is a sequence of segments between ampersands, each a key and, behind its
first equals sign, a value.  The loop over the characters drops the other equals
signs of a value.
-/

namespace DumaisLib.Rest

namespace RESTParameters

/-! ## Segments -/

def segments (q : Text) : List Text :=
  q.splitOnP (· = '&')

/-- The text before the first equals sign. -/
def segmentKey (segment : Text) : Text :=
  segment.takeWhile (· ≠ '=')

/-- The text behind the first equals sign. -/
def segmentValue (segment : Text) : Text :=
  (segment.dropWhile (· ≠ '=')).drop 1

/-- The last segment for the key. -/
def lastSegment (q key : Text) : Option Text :=
  (segments q).reverse.find? (segmentKey · = key)

/-- What the last segment for the key gives, empty when there is none. -/
def lastValue (q key : Text) : Text :=
  ((lastSegment q key).map segmentValue).getD []

/-- What the loop keeps of a value. -/
def unsigned (value : Text) : Text :=
  value.filter (· ≠ '=')

theorem segments_single {segment : Text} (hsegment : '&' ∉ segment) :
    segments segment = [segment] :=
  List.splitOnP_eq_singleton fun char hchar =>
    decide_eq_false fun (heq : char = '&') => hsegment (heq ▸ hchar)

theorem segments_cons {segment : Text} (hsegment : '&' ∉ segment) (rest : Text) :
    segments (segment ++ '&' :: rest) = segment :: segments rest :=
  List.splitOnP_append_cons_of_forall_mem
    (fun char hchar => decide_eq_false fun (heq : char = '&') => hsegment (heq ▸ hchar)) '&' rfl rest

/-! ## The loop within a segment -/

/-- No character ends the query. -/
def Plain (q : Text) : Prop :=
  ∀ char ∈ q, char ≠ ' ' ∧ char ≠ '\r' ∧ char ≠ '\n'

namespace Scan

variable (registeredParams : ParamMap)

/-- Within a value everything but equals signs is kept. -/
theorem foldl_value {segment : Text} (hplain : Plain segment) (hsegment : '&' ∉ segment)
    (key value : Text) (table : TextMap) :
    segment.foldl (read registeredParams) ⟨false, key, value, table⟩ =
      ⟨false, key, value ++ unsigned segment, table⟩ := by
  induction segment generalizing value with
  | nil => simp [unsigned]
  | cons char segment ih =>
      obtain ⟨⟨hspace, hreturn, hline⟩, hrest⟩ := List.forall_mem_cons.mp hplain
      obtain ⟨hand, hlater⟩ := not_or.mp (List.mem_cons.not.mp hsegment)
      rw [List.foldl_cons]
      by_cases hequals : char = '='
      · have hnext : read registeredParams ⟨false, key, value, table⟩ char =
            ⟨false, key, value, table⟩ := if_pos hequals
        rw [hnext, ih hrest hlater, unsigned, unsigned, List.filter_cons_of_neg (by simp [hequals])]
      · have hnext : read registeredParams ⟨false, key, value, table⟩ char =
            ⟨false, key, value ++ [char], table⟩ := by
          simp [read, hequals, Ne.symm hand, hspace, hreturn, hline]
        rw [hnext, ih hrest hlater, unsigned, unsigned, List.filter_cons_of_pos (by simp [hequals]),
          List.append_assoc]
        rfl

/-- A segment leaves its key and what is kept of its value. -/
theorem foldl_segment {segment : Text} (hplain : Plain segment) (hsegment : '&' ∉ segment)
    (key : Text) (table : TextMap) :
    ∃ keyFlag, segment.foldl (read registeredParams) ⟨true, key, [], table⟩ =
      ⟨keyFlag, key ++ segmentKey segment, unsigned (segmentValue segment), table⟩ := by
  induction segment generalizing key with
  | nil => exact ⟨true, by simp [segmentKey, segmentValue, unsigned]⟩
  | cons char segment ih =>
      obtain ⟨⟨hspace, hreturn, hline⟩, hrest⟩ := List.forall_mem_cons.mp hplain
      obtain ⟨hand, hlater⟩ := not_or.mp (List.mem_cons.not.mp hsegment)
      rw [List.foldl_cons]
      by_cases hequals : char = '='
      · have hnext : read registeredParams ⟨true, key, [], table⟩ char =
            ⟨false, key, [], table⟩ := if_pos hequals
        refine ⟨false, ?_⟩
        rw [hnext, foldl_value registeredParams hrest hlater]
        simp [segmentKey, segmentValue, hequals]
      · have hnext : read registeredParams ⟨true, key, [], table⟩ char =
            ⟨true, key ++ [char], [], table⟩ := by
          simp [read, hequals, Ne.symm hand, hspace, hreturn, hline]
        obtain ⟨keyFlag, hfold⟩ := ih hrest hlater (key ++ [char])
        refine ⟨keyFlag, ?_⟩
        rw [hnext, hfold]
        simp [segmentKey, segmentValue, hequals]

/-! ## The loop over the segments -/

/-- The entry that a segment makes. -/
def segmentEntry (segment : Text) : Text × Text :=
  (segmentKey segment, unsigned (segmentValue segment))

/-- The key of the entry is registered. -/
def kept (entry : Text × Text) : Bool :=
  (registeredParams.lookup entry.1).isSome

/-- The entries of the registered keys, in the order of the segments. -/
def entries (q : Text) : List (Text × Text) :=
  ((segments q).map segmentEntry).filter (kept registeredParams)

theorem keep_table (scan : Scan) :
    (scan.keep registeredParams).mParametersValues =
      TextMap.addAll ([(scan.key, scan.value)].filter (kept registeredParams))
        scan.mParametersValues := by
  unfold keep
  split
  · rename_i hkey
    simp [kept, hkey, TextMap.addAll]
  · rename_i hkey
    simp [kept, hkey, TextMap.addAll]

/-- The loop keeps the entry of each segment when the segment ends. -/
theorem foldl_segments {part q : Text} (hpart : Plain part) (hwithin : '&' ∉ part) (hq : Plain q)
    (table : TextMap) :
    ((q.foldl (read registeredParams)
        (part.foldl (read registeredParams) ⟨true, [], [], table⟩)).keep
          registeredParams).mParametersValues =
      TextMap.addAll (entries registeredParams (part ++ q)) table := by
  induction q generalizing part table with
  | nil =>
      obtain ⟨keyFlag, hfold⟩ := foldl_segment registeredParams hpart hwithin [] table
      rw [List.append_nil, entries, segments_single hwithin, hfold]
      exact keep_table registeredParams _
  | cons char q ih =>
      obtain ⟨hchar, hrest⟩ := List.forall_mem_cons.mp hq
      rw [List.foldl_cons]
      by_cases hand : char = '&'
      · obtain ⟨keyFlag, hfold⟩ := foldl_segment registeredParams hpart hwithin [] table
        have hentries : entries registeredParams (part ++ char :: q) =
            ([segmentEntry part].filter (kept registeredParams)) ++
              entries registeredParams q := by
          rw [entries, hand, segments_cons hwithin, List.map_cons, ← List.singleton_append,
            List.filter_append]
          rfl
        have hnext (scan : Scan) : read registeredParams scan char =
            ⟨true, [], [], (scan.keep registeredParams).mParametersValues⟩ := by
          rw [hand]
          rfl
        have hlater := @ih [] (fun _ hmem => by cases hmem) (by simp) hrest
          ((Scan.mk keyFlag (segmentKey part) (unsigned (segmentValue part)) table).keep
            registeredParams).mParametersValues
        rw [hnext, hfold, hentries, TextMap.addAll_append]
        refine hlater.trans ?_
        rw [keep_table]
        rfl
      · have hpart' : Plain (part ++ [char]) := by
          intro other hother
          rcases List.mem_append.mp hother with hold | hnew
          · exact hpart other hold
          · obtain rfl := List.mem_singleton.mp hnew
            exact hchar
        have hwithin' : '&' ∉ part ++ [char] := by
          simp [hwithin, Ne.symm hand]
        have hlater := ih hpart' hwithin' hrest table
        rw [List.foldl_append, List.append_assoc] at hlater
        exact hlater

/-- Without a character that ends the query the loop reads all of it. -/
theorem run_table {q : Text} (hplain : Plain q) (hne : q ≠ []) (scan : Scan) :
    (scan.run registeredParams q).mParametersValues =
      ((q.foldl (read registeredParams) scan).keep registeredParams).mParametersValues := by
  induction q generalizing scan with
  | nil => exact absurd rfl hne
  | cons char q ih =>
      obtain ⟨hchar, hrest⟩ := List.forall_mem_cons.mp hplain
      rw [run, if_neg hchar.1, List.foldl_cons]
      cases q with
      | nil =>
          dsimp only
          rw [if_pos (Or.inl rfl)]
          rfl
      | cons next q =>
          obtain ⟨hspace, hreturn, hline⟩ := (List.forall_mem_cons.mp hrest).1
          have hgoes : ¬ (next :: q = [] ∨ (next :: q).head? = some ' ' ∨
              (next :: q).head? = some '\r' ∨ (next :: q).head? = some '\n') := by
            simp [hspace, hreturn, hline]
          dsimp only
          rw [if_neg hgoes]
          exact ih hrest (by simp) _

/-- Of the entries of some segments the first one for the key is found. -/
theorem lookup_entries (list : List Text) (key : Text) :
    ((list.map segmentEntry).filter (kept registeredParams)).lookup key =
      if (registeredParams.lookup key).isSome then
        (list.find? (segmentKey · = key)).map fun segment => unsigned (segmentValue segment)
      else none := by
  induction list with
  | nil => simp
  | cons segment list ih =>
      rw [List.map_cons]
      by_cases hkey : segmentKey segment = key
      · have hfind : (segment :: list).find? (segmentKey · = key) = some segment :=
          List.find?_cons_of_pos (by simpa using hkey)
        rw [hfind, ← hkey]
        by_cases hknown : (registeredParams.lookup (segmentKey segment)).isSome = true
        · have hkept : kept registeredParams (segmentEntry segment) = true := hknown
          rw [List.filter_cons_of_pos hkept, if_pos hknown]
          exact List.lookup_cons_self
        · have hdropped : ¬ kept registeredParams (segmentEntry segment) = true := hknown
          rw [List.filter_cons_of_neg hdropped, hkey, ih, ← hkey, if_neg hknown, if_neg hknown]
      · have hfind : (segment :: list).find? (segmentKey · = key) =
            list.find? (segmentKey · = key) :=
          List.find?_cons_of_neg (by simpa using hkey)
        rw [hfind, ← ih]
        by_cases hknown : kept registeredParams (segmentEntry segment) = true
        · have hother : (key == segmentKey segment) = false := by simpa using Ne.symm hkey
          rw [List.filter_cons_of_pos hknown, segmentEntry, List.lookup_cons, hother]
        · rw [List.filter_cons_of_neg hknown]

end Scan

/-! ## Queries -/

/-- A registered parameter has what the loop keeps of its last value, any other one nothing. -/
theorem getParam_create {q : Text} (hplain : Plain q) (registeredParams : ParamMap) (key : Text) :
    (create q registeredParams).getParam key =
      if (registeredParams.lookup key).isSome then unsigned (lastValue q key) else [] := by
  by_cases hne : q = []
  · subst hne
    have hnone : (create [] registeredParams).getParam key = [] := rfl
    have hempty : lastValue [] key = [] := by
      by_cases hkey : key = []
      · subst hkey
        rfl
      · simp [lastValue, lastSegment, segments, segmentKey, Ne.symm hkey]
    rw [hnone, hempty]
    exact (ite_self _).symm
  · have htable : (create q registeredParams).mParametersValues =
        TextMap.addAll (Scan.entries registeredParams q) ∅ :=
      (Scan.run_table registeredParams hplain hne Scan.start).trans
        (@Scan.foldl_segments registeredParams [] q (fun _ hmem => by cases hmem) (by simp)
          hplain ∅)
    rw [getParam, htable, TextMap.lookup_addAll, AList.lookup_empty, Option.or_none, Scan.entries,
      ← List.filter_reverse, ← List.map_reverse, Scan.lookup_entries]
    split
    · unfold lastValue lastSegment
      cases (segments q).reverse.find? (segmentKey · = key) <;> rfl
    · rfl

/-- A query string, without space, carriage return or line feed. -/
structure Query where
  text : Text
  plain : Plain text

/--
All parameters have the values that their last segments give exactly when none
of these values contains an equals sign.
-/
theorem getParam_iff (query : Query) (registeredParams : ParamMap) :
    (∀ key, (create query.text registeredParams).getParam key =
      if (registeredParams.lookup key).isSome then lastValue query.text key else []) ↔
      ∀ key, (registeredParams.lookup key).isSome → '=' ∉ lastValue query.text key := by
  refine forall_congr' fun key => ?_
  rw [getParam_create query.plain]
  split
  · rename_i hknown
    simp only [hknown, true_implies]
    rw [unsigned, List.filter_eq_self]
    constructor
    · intro hall hmem
      exact absurd (hall _ hmem) (by decide)
    · intro hnot char hchar
      exact decide_eq_true fun (heq : char = '=') => hnot (heq ▸ hchar)
  · rename_i hunknown
    simp only [hunknown, false_implies, Bool.false_eq_true]

/-- A value with an equals sign in it. -/
def exampleQuery : Query where
  text := "a=b=c".toList
  plain := by simp [Plain]

def exampleParams : ParamMap :=
  [("a".toList, ⟨"a".toList, [], "query".toList, [], "string".toList, true⟩)]

/-- The value `b=c` is read as `bc`. -/
theorem equals_sign_dropped :
    ¬ ∀ key, (create exampleQuery.text exampleParams).getParam key =
      if (exampleParams.lookup key).isSome then lastValue exampleQuery.text key else [] := by
  intro hall
  exact absurd (hall "a".toList) (by decide +kernel)

end RESTParameters

end DumaisLib.Rest

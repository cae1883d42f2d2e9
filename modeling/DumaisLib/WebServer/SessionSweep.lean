import DumaisLib.Lib.Machine
import DumaisLib.WebServer.WebServer

/-!
# The loop that erases expired sessions

The loop goes through the sessions with an iterator.  Erasing the session at the
iterator leaves an iterator that cannot be used again, and the loop goes on from it.
-/

namespace DumaisLib.WebServer

open Machine

/--
The sessions in the order in which the map goes through them.  The iterator is
the nonce that it stands at, and none at the end.
-/
structure Sweep where
  mSessions : Sessions
  it : Option Text

/-- `it++`: the key behind this one, or the end; none when the key is not there any more. -/
def increment (it : Text) : List Text → Option (Option Text)
  | [] => none
  | key :: keys => if key = it then some keys.head? else increment it keys

/-- One turn of the loop at the time `t`. -/
def sweepTurn (t : Int) (sweep : Sweep) : Option (Turn Sweep Sessions) :=
  match sweep.it with
  | none => some (.stop sweep.mSessions)
  | some it =>
      match sweep.mSessions.lookup it with
      | none => none
      | some session =>
          let mSessions :=
            if (session.mExpires : Int) < t then sweep.mSessions.erase it else sweep.mSessions
          (increment it mSessions.keys).map fun it => .again ⟨mSessions, it⟩

/-- The loop, which has one turn for each session and one to stop. -/
def sweepSessions (t : Int) (mSessions : Sessions) : Outcome Sessions :=
  loop (sweepTurn t) (mSessions.entries.length + 1) ⟨mSessions, mSessions.keys.head?⟩

/-! ## One turn -/

theorem increment_split {it : Text} {before after : List Text} (hfirst : it ∉ before) :
    increment it (before ++ it :: after) = some after.head? := by
  induction before with
  | nil => exact if_pos rfl
  | cons key before ih =>
      obtain ⟨hkey, hbefore⟩ := not_or.mp (List.mem_cons.not.mp hfirst)
      rw [List.cons_append, increment, if_neg (Ne.symm hkey)]
      exact ih hbefore

theorem increment_erased {it : Text} {keys : List Text} (herased : it ∉ keys) :
    increment it keys = none := by
  induction keys with
  | nil => rfl
  | cons key keys ih =>
      obtain ⟨hkey, hkeys⟩ := not_or.mp (List.mem_cons.not.mp herased)
      rw [increment, if_neg (Ne.symm hkey)]
      exact ih hkeys

variable {t : Int} {mSessions : Sessions} {it : Text} {session : WebSession}

/-- A session that has not expired stays, and the iterator goes to the next one. -/
theorem sweepTurn_live {before after : List Text} (hkeys : mSessions.keys = before ++ it :: after)
    (hlookup : mSessions.lookup it = some session) (hlive : t ≤ (session.mExpires : Int)) :
    sweepTurn t ⟨mSessions, some it⟩ = some (.again ⟨mSessions, after.head?⟩) := by
  have hfirst : it ∉ before := by
    have hnodup := mSessions.keys_nodup
    rw [hkeys] at hnodup
    exact fun hmem => List.disjoint_of_nodup_append hnodup hmem List.mem_cons_self
  simp only [sweepTurn, hlookup]
  rw [if_neg (not_lt.mpr hlive), hkeys, increment_split hfirst]
  rfl

/-- An expired session is erased under the iterator, which is then used. -/
theorem sweepTurn_expired (hlookup : mSessions.lookup it = some session)
    (hexpired : (session.mExpires : Int) < t) :
    sweepTurn t ⟨mSessions, some it⟩ = none := by
  have herased : it ∉ (mSessions.erase it).keys := fun hmem => (AList.mem_erase.mp hmem).1 rfl
  simp only [sweepTurn, hlookup]
  rw [if_pos hexpired, increment_erased herased]
  rfl

/-! ## The whole loop -/

/-- From any iterator on, the loop faults at an expired session and changes nothing otherwise. -/
theorem loop_sweepTurn {before after : List Text} (hkeys : mSessions.keys = before ++ after)
    {fuel : Nat} (hfuel : after.length < fuel) :
    ((∀ nonce ∈ after, ∀ session, mSessions.lookup nonce = some session →
        t ≤ (session.mExpires : Int)) →
      loop (sweepTurn t) fuel ⟨mSessions, after.head?⟩ = .finished mSessions) ∧
    ((∃ nonce ∈ after, ∃ session, mSessions.lookup nonce = some session ∧
        (session.mExpires : Int) < t) →
      loop (sweepTurn t) fuel ⟨mSessions, after.head?⟩ = .fault) := by
  induction after generalizing before fuel with
  | nil =>
      cases fuel with
      | zero => exact absurd hfuel (Nat.not_lt_zero _)
      | succ fuel =>
          refine ⟨fun _ => rfl, ?_⟩
          rintro ⟨nonce, hmem, _⟩
          cases hmem
  | cons it after ih =>
      cases fuel with
      | zero => exact absurd hfuel (Nat.not_lt_zero _)
      | succ fuel =>
          have hmem : it ∈ mSessions.keys := by
            rw [hkeys]
            exact List.mem_append_right _ List.mem_cons_self
          obtain ⟨session, hlookup⟩ := Option.isSome_iff_exists.mp (AList.lookup_isSome.mpr hmem)
          have hrest := @ih (before ++ [it]) (by rw [hkeys]; simp) fuel
            (Nat.lt_of_succ_lt_succ hfuel)
          rw [List.head?_cons, loop]
          rcases lt_or_ge (session.mExpires : Int) t with hexpired | hlive
          · rw [sweepTurn_expired hlookup hexpired]
            refine ⟨fun hall => ?_, fun _ => rfl⟩
            exact absurd (hall it List.mem_cons_self session hlookup) (not_le.mpr hexpired)
          · rw [sweepTurn_live hkeys hlookup hlive]
            constructor
            · intro hall
              exact hrest.1 fun nonce hnonce => hall nonce (List.mem_cons_of_mem _ hnonce)
            · rintro ⟨nonce, hnonce, other, hother, hexpired⟩
              rcases List.mem_cons.mp hnonce with rfl | hlater
              · obtain rfl := Option.some.inj (hlookup.symm.trans hother)
                exact absurd hlive (not_le.mpr hexpired)
              · exact hrest.2 ⟨nonce, hlater, other, hother, hexpired⟩

/-- No session has expired at the time. -/
def AllLive (t : Int) (mSessions : Sessions) : Prop :=
  ∀ entry ∈ mSessions.entries, t ≤ (entry.2.mExpires : Int)

theorem allLive_iff (t : Int) (mSessions : Sessions) :
    AllLive t mSessions ↔ ∀ nonce ∈ mSessions.keys, ∀ session,
      mSessions.lookup nonce = some session → t ≤ (session.mExpires : Int) := by
  constructor
  · intro hall nonce _ session hlookup
    exact hall ⟨nonce, session⟩ (AList.mem_lookup_iff.mp hlookup)
  · rintro hall ⟨nonce, session⟩ hentry
    exact hall nonce (List.mem_keys_of_mem hentry) session (AList.mem_lookup_iff.mpr hentry)

theorem length_keys_lt (mSessions : Sessions) :
    mSessions.keys.length < mSessions.entries.length + 1 := by
  rw [AList.keys, List.keys, List.length_map]
  exact Nat.lt_succ_self _

theorem sweepSessions_live (hlive : AllLive t mSessions) :
    sweepSessions t mSessions = .finished mSessions := by
  exact (@loop_sweepTurn t mSessions [] mSessions.keys rfl _
    (length_keys_lt mSessions)).1
    ((allLive_iff t mSessions).mp hlive)

theorem sweepSessions_expired (hexpired : ¬ AllLive t mSessions) :
    sweepSessions t mSessions = .fault := by
  refine (@loop_sweepTurn t mSessions [] mSessions.keys rfl _
    (length_keys_lt mSessions)).2 ?_
  rw [allLive_iff] at hexpired
  push Not at hexpired
  obtain ⟨nonce, hmem, session, hlookup, hlt⟩ := hexpired
  exact ⟨nonce, hmem, session, hlookup, hlt⟩

/-- What a loop that finishes leaves is what `clearExpiredSessions` does, whatever it passes over. -/
theorem clearExpiredSessions_of_swept {kept : Sessions}
    (hswept : sweepSessions t mSessions = .finished kept) (passedOver : Text → Bool) :
    kept = WebServer.clearExpiredSessions t passedOver mSessions := by
  by_cases hlive : AllLive t mSessions
  · rw [sweepSessions_live hlive] at hswept
    obtain rfl := Outcome.finished.inj hswept
    apply AList.ext
    symm
    apply List.filter_eq_self.mpr
    intro entry hentry
    have hentryLive := not_lt.mpr (hlive entry hentry)
    simp [hentryLive]
  · rw [sweepSessions_expired hlive] at hswept
    cases hswept

/-- The loop ends without error, and exactly the sessions that have not expired are left. -/
def SweepsExpired (t : Int) (mSessions : Sessions) : Prop :=
  ∃ kept, sweepSessions t mSessions = .finished kept ∧
    kept.entries = mSessions.entries.filter fun entry => t ≤ (entry.2.mExpires : Int)

/-- It does so exactly when there is nothing to erase. -/
theorem sweepsExpired_iff (t : Int) (mSessions : Sessions) :
    SweepsExpired t mSessions ↔ ∀ entry ∈ mSessions.entries, t ≤ (entry.2.mExpires : Int) := by
  constructor
  · rintro ⟨kept, hswept, _⟩
    by_contra hexpired
    rw [sweepSessions_expired hexpired] at hswept
    cases hswept
  · intro hlive
    refine ⟨mSessions, sweepSessions_live hlive, (List.filter_eq_self.mpr ?_).symm⟩
    intro entry hentry
    exact decide_eq_true (hlive entry hentry)

/-- One session, expired for a second. -/
theorem expired_session_not_swept :
    sweepSessions 1001 (AList.insert "nonce".toList ⟨1000, "nonce".toList⟩ ∅) = .fault ∧
      ¬ SweepsExpired 1001 (AList.insert "nonce".toList ⟨1000, "nonce".toList⟩ ∅) := by
  have hfault : sweepSessions 1001 (AList.insert "nonce".toList ⟨1000, "nonce".toList⟩ ∅) =
      .fault := rfl
  refine ⟨hfault, ?_⟩
  rintro ⟨kept, hswept, _⟩
  rw [hfault] at hswept
  cases hswept

end DumaisLib.WebServer

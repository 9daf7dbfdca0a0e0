import ChessCrawl.Collection.Followups

/-! The primary keys of `collection_source_ranges` and `collection_followups`, and what of a body a run may rely on:
the rows that a paged read returns are then in strict order. -/
namespace ChessCrawl.Collection
open ChessCrawl.Lib
set_option autoImplicit false

/-- One range for a payload, one follow-up for a game. -/
structure Db.Keyed (db : Db) : Prop where
  ranges : (db.sourceRanges.map SourceRange.rawPayloadId).Nodup
  followups : (db.followups.map Prod.fst).Nodup

namespace Db

theorem trackFollowup_nodup {db : Db} (h : (db.followups.map Prod.fst).Nodup) (ref : GameRef) (created : Int)
    (finished : Bool) : ((db.trackFollowup ref created finished).followups.map Prod.fst).Nodup := by
  unfold trackFollowup
  split
  · exact h.sublist (List.filter_sublist.map _)
  · split
    · exact h
    · next hnone =>
      rw [List.map_append]
      refine List.nodup_append.mpr ⟨h, by simp, fun a ha b hb heq => ?_⟩
      obtain ⟨f, hf, rfl⟩ := List.mem_map.mp ha
      rw [List.mem_singleton.mp hb] at heq
      exact hnone (List.any_eq_true.mpr ⟨f, hf, decide_eq_true heq⟩)

theorem trackGame_nodup {db db' : Db} {g : GameObject} (h : (db.followups.map Prod.fst).Nodup)
    (ht : db.trackGame g = some db') : (db'.followups.map Prod.fst).Nodup := by
  unfold trackGame at ht
  split at ht
  · split at ht
    · cases ht
    · cases ht
      exact trackFollowup_nodup h _ _ _
  · cases ht

theorem trackGames_nodup {db db' : Db} {body : List GameObject} (h : (db.followups.map Prod.fst).Nodup)
    (ht : db.trackGames body = some db') : (db'.followups.map Prod.fst).Nodup := by
  induction body generalizing db with
  | nil =>
    cases ht
    exact h
  | cons g gs ih =>
    obtain ⟨mid, hmid, hrest⟩ := Option.bind_eq_some_iff.mp (ht : (db.trackGame g).bind _ = some db')
    exact ih (trackGame_nodup h hmid) hrest

theorem recordSourceRange_keyed {db : Db} (h : db.Keyed) (raw : Nat) (since : Option Int) (upto : Int) :
    (db.recordSourceRange raw since upto).Keyed := by
  unfold recordSourceRange
  split
  · exact h
  · next hnone =>
    refine ⟨?_, h.followups⟩
    rw [List.map_append]
    refine List.nodup_append.mpr ⟨h.ranges, by simp, fun a ha b hb heq => ?_⟩
    obtain ⟨r, hr, rfl⟩ := List.mem_map.mp ha
    rw [List.mem_singleton.mp hb] at heq
    exact hnone (List.any_eq_true.mpr ⟨r, hr, decide_eq_true heq⟩)

theorem recordPage_keyed {db db' : Db} {k : PageKey} {raw : Nat} {body : List GameObject} (h : db.Keyed)
    (hr : db.recordPage k raw body = some db') : db'.Keyed := by
  unfold recordPage at hr
  obtain ⟨ts, _, hr⟩ := Option.bind_eq_some_iff.mp hr
  obtain ⟨span, _, hr⟩ := Option.bind_eq_some_iff.mp hr
  have hranges := recordSourceRange_keyed h raw span.lower span.upper
  refine ⟨?_, trackGames_nodup hranges.followups hr⟩
  rw [trackGames_frame hr]
  exact hranges.ranges

end Db

theorem Moves.keyed {env : Env} {job : Nat} {clock : Int} {db db' : Db} {call : Call} {next : Option Call}
    (hm : Moves env job clock db call db' next) (h : db.Keyed) : db'.Keyed := by
  by_cases hheld : ∃ x c t raw, call = .running x c (.fetched t raw)
  · obtain ⟨x, c, t, raw, rfl⟩ := hheld
    cases hm with
    | drop => exact h
    | refresh ht hx hb =>
      have hfollow := Db.trackGame_nodup h.followups ht
      refine ⟨?_, hfollow⟩
      rw [Db.trackGame_frame ht]
      exact h.ranges
    | record hp hr => exact Db.recordPage_keyed h hr
  · have hfollow := hm.followups.resolve_right hheld
    have hranges := hm.effect.sourceRanges.resolve_right fun ⟨x, c, k, raw, _, heq, _⟩ => hheld ⟨x, c, _, raw, heq⟩
    exact ⟨hranges ▸ h.ranges, hfollow ▸ h.followups⟩

theorem reachable_keyed {env : Env} {s : State} (h : Reachable (lichess env) s) : s.db.Keyed := by
  refine Reachable.invariant (I := fun s : State => s.db.Keyed) ?_ ?_ h
  · intro s h0
    rw [h0.1]
    exact ⟨List.nodup_nil, List.nodup_nil⟩
  · intro s e t hk hs
    cases e with
    | tick ms =>
      cases hs
      exact hk
    | enter job params stop =>
      obtain ⟨next, _, rfl⟩ := Option.map_eq_some_iff.mp hs
      exact hk
    | crash job =>
      cases hs
      exact hk
    | child n e =>
      obtain ⟨db, hdb, rfl⟩ := Option.map_eq_some_iff.mp hs
      have hframe := processChild_frame hdb
      refine ⟨?_, ?_⟩
      · rw [hframe]
        exact hk.ranges
      · rw [hframe]
        exact hk.followups
    | advance job i =>
      obtain ⟨call, hcall, hs⟩ := Option.bind_eq_some_iff.mp hs
      obtain ⟨⟨db, next⟩, hadv, hs⟩ := Option.bind_eq_some_iff.mp hs
      cases hs
      exact (Call.advance_moves hadv).keyed hk

/-! ## Rows in order -/

theorem pairwise_lt_sorted {l : List Nat} (h : l.Nodup) : (l.insertionSort (· ≤ ·)).Pairwise (· < ·) := by
  have hsorted : (l.insertionSort (· ≤ ·)).Pairwise (· ≤ ·) := List.pairwise_insertionSort (· ≤ ·) l
  have hnodup : (l.insertionSort (· ≤ ·)).Nodup := (List.perm_insertionSort (· ≤ ·) l).nodup_iff.mpr h
  exact (hsorted.and hnodup).imp fun hab => lt_of_le_of_ne hab.1 hab.2

/-- The payloads that replay has left. -/
def Db.replayable (db : Db) (c : Cursor) : List Nat :=
  (db.sourceRanges.filter fun r => Db.overlaps r c.requestedSinceMs c.upperMs && decide (c.localAfter < r.rawPayloadId) &&
    decide (r.rawPayloadId ≤ c.localHighWater)).map SourceRange.rawPayloadId

/-- The follow-ups that are left. -/
def Db.awaited (db : Db) (c : Cursor) : List GameRef :=
  (db.followups.map Prod.fst).filter fun ref => c.followupAfter.all fun a => decide (a < ref)

theorem coveredSources_sorted {db : Db} (h : db.Keyed) (c : Cursor) (limit : Nat) :
    (db.coveredSources c.upperMs c.localAfter c.localHighWater limit c.requestedSinceMs).Pairwise (· < ·) ∧
      ∀ raw ∈ db.coveredSources c.upperMs c.localAfter c.localHighWater limit c.requestedSinceMs, raw ∈ db.replayable c := by
  unfold Db.coveredSources
  refine ⟨(pairwise_lt_sorted ?_).take, fun raw hraw => ?_⟩
  · exact h.ranges.sublist (List.filter_sublist.map _)
  · exact (List.perm_insertionSort _ _).mem_iff.mp (List.mem_of_mem_take hraw)

theorem followupRefs_sorted {db : Db} (h : db.Keyed) (c : Cursor) (limit : Nat) :
    (db.followupRefs c.followupAfter limit).Pairwise (· < ·) ∧
      ∀ ref ∈ db.followupRefs c.followupAfter limit, ref ∈ db.awaited c := by
  unfold Db.followupRefs
  refine ⟨(pairwise_lt_sorted (h.followups.filter _)).take, fun ref href => ?_⟩
  exact (List.perm_insertionSort _ _).mem_iff.mp (List.mem_of_mem_take href)

end ChessCrawl.Collection

import ChessCrawl.Normalize.Admission

/-! The attribution of a game that the locked check has admitted. It raises exactly where the facts in force lie outside
of the window, takes the writes of its transaction with it and ends the call. -/
namespace ChessCrawl.Normalize
open ChessCrawl.Lib
set_option autoImplicit false

theorem runGameBounds_error {db : Db} {runId : Nat} {provider : Provider} {requested : Option Int} {e : Failure}
    (h : db.runGameBounds runId provider requested = .error e) : ∃ message, e = .valueError message := by
  unfold Db.runGameBounds at h
  split at h
  · cases h
    exact ⟨_, rfl⟩
  · split at h
    · cases h
      exact ⟨_, rfl⟩
    · cases h

theorem associateRunGame_error {db : Db} {runId gameId : Nat} {e : Failure} (h : db.associateRunGame runId gameId = .error e) :
    ∃ message, e = .valueError message := by
  unfold Db.associateRunGame at h
  split at h
  · cases h
    exact ⟨_, rfl⟩
  · split at h
    · cases h
    · obtain hbounds | ⟨b, _, h⟩ := bind_error h
      · exact runGameBounds_error hbounds
      · split at h
        · cases h
          exact ⟨_, rfl⟩
        · split at h
          · cases h
            exact ⟨_, rfl⟩
          · cases h

/-- What a call does whose write raises. -/
theorem write_raises {c : Call} {db : Db} {pointer : String} {g : NormalizedGame} {prepared : Bool} {now : Int}
    {message : String} (h : c.writeGame db pointer g prepared now = .error (.valueError message)) :
    c.write db pointer g prepared now = (none, db) := by
  unfold Call.write
  rw [h]

section Refusal
variable {createdOf : String → Option Int} {s : World} {w : Nat} {c : Call} {prepared : Bool} {pointer : String}
  {g : NormalizedGame} {rest : List (String × NormalizedGame)} {runId gameId : Nat} {now : Int} {mid : Db}

end Refusal

/-- The attribution at `movedEnd`, of the end that the newer month has given to the game. -/
def refusesMoved (s : World) : Bool :=
  (s.calls 0).any fun c => decide (c.todo = [("/games/0", listedGame "a" 150)] ∧ c.request.crawlRunId = some 1) &&
    (c.attributing s.db "/games/0" (listedGame "a" 150) true 0).any fun x =>
      decide ((x.2.associateRunGame 1 x.1).map (fun _ => ()) =
        .error (.valueError "The game does not have an end time within the crawl run's date window"))

end ChessCrawl.Normalize

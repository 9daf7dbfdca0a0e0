import ChessCrawl.Workspaces.Isolation

/-! What a service credential is good for: its workspace, from its issue to its revocation or the next rotation. -/
namespace ChessCrawl.Workspaces
open ChessCrawl.Budget ChessCrawl.Lib
set_option autoImplicit false

/-- The primary key and the unique index of `workspace_credentials`. -/
structure Db.Sound (db : Db) : Prop where
  ids : (db.credentials.map Credential.id).Nodup
  digests : (db.credentials.map Credential.tokenDigest).Nodup

/-- A credential as it was issued, and whether it has been revoked. -/
def Db.Holds (db : Db) (id : String) (workspaceId : Nat) (tokenDigest : String) (revoked : Bool) : Prop :=
  ∃ c ∈ db.credentials, c.id = id ∧ c.workspaceId = workspaceId ∧ c.tokenDigest = tokenDigest ∧ c.revokedAt.isSome = revoked

/-- The operation has ended the credential: a revocation of it, or a rotation in its workspace. -/
def Ends (workspaceId : Nat) (id : String) : Operation × Result → Bool
  | (.revoke w i _, .revoked ..) => w = workspaceId && i = id
  | (.rotate w _ _ _, .credential ..) => w = workspaceId
  | _ => false

section Writes
variable {hashed : String → String} {db : Db} {op : Operation} {d d' : Draft} {a : Action}

def Db.taken (db : Db) (id tokenDigest : String) : Bool :=
  db.credentials.any fun c => c.id = id || c.tokenDigest = tokenDigest

def Db.activeIds (db : Db) (w : Nat) : List String :=
  (db.credentials.filter fun c => c.workspaceId = w && c.revokedAt.isNone).map Credential.id

def Action.revocation (db : Db) : Action → Option Revocation
  | .revokeAll w now => some ⟨w, db.activeIds w, now⟩
  | .revokeOne w id now => some ⟨w, [id], now⟩
  | _ => none

def Action.newCredential (hashed : String → String) : Action → Option Credential
  | .insert w id secret now => some ⟨id, w, hashed secret.token, now, none⟩
  | _ => none

/-- What an operation writes into the table of credentials if it succeeds. -/
def Operation.revocation (db : Db) : Operation → Option Revocation
  | .rotate w _ _ now => some ⟨w, db.activeIds w, now⟩
  | .revoke w id now => some ⟨w, [id], now⟩
  | _ => none

def Operation.newCredential (hashed : String → String) : Operation → Option Credential
  | .provision w _ id secret now | .issue w id secret now | .rotate w id secret now =>
    some ⟨id, w, hashed secret.token, now, none⟩
  | _ => none

theorem act_writes (h : db.act hashed d a = .ok d') :
    d'.revoked = (a.revocation db).or d.revoked ∧ d'.credential = (a.newCredential hashed).or d.credential ∧
      ∀ c, a.newCredential hashed = some c → db.taken c.id c.tokenDigest = false := by
  cases a with
  | require w =>
    simp only [Db.act] at h
    split at h
    · cases h
      exact ⟨rfl, rfl, by simp [Action.newCredential]⟩
    · cases h
  | create w =>
    simp only [Db.act] at h
    split at h
    · cases h
    · cases h
      exact ⟨rfl, rfl, by simp [Action.newCredential]⟩
  | enter w =>
    simp only [Db.act, Except.ok.injEq] at h
    subst h
    split <;> exact ⟨rfl, rfl, by simp [Action.newCredential]⟩
  | replace w policy expectedVersion =>
    simp only [Db.act] at h
    split at h
    · cases h
      exact ⟨rfl, rfl, by simp [Action.newCredential]⟩
    · cases h
  | revokeOne w id now =>
    simp only [Db.act] at h
    split at h
    · cases h
    · cases h
      exact ⟨rfl, rfl, by simp [Action.newCredential]⟩
  | insert w id secret now =>
    simp only [Db.act] at h
    split at h
    · cases h
    · rename_i hfree
      cases h
      refine ⟨rfl, rfl, fun c hc => ?_⟩
      obtain rfl := Option.some.inj hc
      exact Bool.eq_false_iff.mpr hfree
  | _ =>
    cases h
    exact ⟨rfl, rfl, by simp [Action.newCredential]⟩

theorem replay_writes (h : (transactions hashed).replay db op op.actions = .ok d) :
    d.revoked = op.revocation db ∧ d.credential = op.newCredential hashed ∧
      ∀ c, d.credential = some c → db.taken c.id c.tokenDigest = false := by
  have hfold : ∀ (as : List Action) (d₀ d : Draft), as.foldlM (fun d a => db.act hashed d a) d₀ = .ok d →
      (∀ c, d₀.credential = some c → db.taken c.id c.tokenDigest = false) →
      d.revoked = as.foldl (fun r a => (a.revocation db).or r) d₀.revoked ∧
      d.credential = as.foldl (fun c a => (a.newCredential hashed).or c) d₀.credential ∧
      ∀ c, d.credential = some c → db.taken c.id c.tokenDigest = false := by
    intro as
    induction as with
    | nil =>
      intro d₀ d h hfree
      cases h
      exact ⟨rfl, rfl, hfree⟩
    | cons a as ih =>
      intro d₀ d h hfree
      obtain ⟨d₁, h₁, hrest⟩ := bind_ok h
      obtain ⟨hrevoked, hcredential, hnew⟩ := act_writes h₁
      have hfree₁ : ∀ c, d₁.credential = some c → db.taken c.id c.tokenDigest = false := by
        intro c hc
        rw [hcredential] at hc
        cases hsome : a.newCredential hashed with
        | none =>
          rw [hsome, Option.none_or] at hc
          exact hfree c hc
        | some c' =>
          rw [hsome, Option.some_or] at hc
          exact hnew c (hsome.trans hc)
      have := ih d₁ d hrest hfree₁
      rwa [hrevoked, hcredential] at this
  obtain ⟨hrevoked, hcredential, hfree⟩ := hfold _ _ _ h (by simp [transactions])
  refine ⟨hrevoked.trans ?_, hcredential.trans ?_, hfree⟩
  · cases op <;> rfl
  · cases op <;> rfl

/-- An operation fails and changes nothing, or writes its rows. -/
theorem atomic_cases (hashed : String → String) (db : Db) (op : Operation) :
    (∃ r, (transactions hashed).atomic db op = (r, db) ∧ (transactions hashed).replay db op op.actions = .error r) ∨
    ∃ d, (transactions hashed).atomic db op = (op.result d, db.apply d) ∧
      (transactions hashed).replay db op op.actions = .ok d := by
  cases h : (transactions hashed).replay db op op.actions with
  | error r =>
    left
    refine ⟨r, ?_, rfl⟩
    unfold Transactions.atomic
    exact (by rw [show (transactions hashed).actions op = op.actions from rfl, h])
  | ok d => exact .inr ⟨d, Transactions.atomic_ok h, rfl⟩

theorem replay_error {r : Result} (h : (transactions hashed).replay db op op.actions = .error r) :
    (∃ message, r = .failed message) ∨ ∃ error, r = .refused error := by
  have hact : ∀ d a, db.act hashed d a = .error r → (∃ message, r = .failed message) ∨ ∃ error, r = .refused error := by
    intro d a ha
    cases a with
    | replace w policy expectedVersion =>
      simp only [Db.act] at ha
      split at ha
      · cases ha
      · cases ha
        exact .inr ⟨_, rfl⟩
    | lockAccess w => cases ha
    | lockBudget w => cases ha
    | enter w => cases ha
    | install w policy managed => cases ha
    | revokeAll w now => cases ha
    | lookup token => cases ha
    | _ =>
      simp only [Db.act] at ha
      split at ha <;> cases ha
      exact .inl ⟨_, rfl⟩
  have hfold : ∀ (as : List Action) (d : Draft), as.foldlM (fun d a => db.act hashed d a) d = .error r →
      (∃ message, r = .failed message) ∨ ∃ error, r = .refused error := by
    intro as
    induction as with
    | nil =>
      intro d h
      cases h
    | cons a as ih =>
      intro d h
      obtain hfirst | ⟨d₁, _, hrest⟩ := bind_error h
      · exact hact d a hfirst
      · exact ih d₁ hrest
  exact hfold _ _ h

/-! ## The table of credentials -/

theorem isSome_revoke (c : Credential) (r : Revocation) : (c.revoke r).revokedAt.isSome =
    (c.revokedAt.isSome || decide (c.workspaceId = r.workspaceId ∧ c.id ∈ r.ids)) := by
  unfold Credential.revoke
  split
  · rename_i h
    simp [h]
  · rename_i h
    simp [h]

theorem sound_apply (h : db.Sound) (hfree : ∀ c, d.credential = some c → db.taken c.id c.tokenDigest = false) :
    (db.apply d).Sound := by
  have hkept : ∀ {β : Type} (f : Credential → β), (∀ c r, f (c.revoke r) = f c) →
      (d.revoked.elim db.credentials fun r => db.credentials.map fun c => c.revoke r).map f = db.credentials.map f := by
    intro β f hf
    cases d.revoked with
    | none => rfl
    | some r => simp [hf]
  have hnew : ∀ c, d.credential = some c → (∀ c' ∈ db.credentials, c'.id ≠ c.id) ∧
      ∀ c' ∈ db.credentials, c'.tokenDigest ≠ c.tokenDigest := by
    intro c hc
    have := hfree c hc
    simp only [Db.taken, List.any_eq_false, Bool.or_eq_true, decide_eq_true_eq, not_or] at this
    exact ⟨fun c' hc' => (this c' hc').1, fun c' hc' => (this c' hc').2⟩
  constructor
  · simp only [Db.apply, List.map_append, hkept _ revoke_id]
    cases hc : d.credential with
    | none => simpa using h.ids
    | some c =>
      rw [List.nodup_append]
      refine ⟨h.ids, by simp, ?_⟩
      simpa using (hnew c hc).1
  · simp only [Db.apply, List.map_append, hkept _ revoke_tokenDigest]
    cases hc : d.credential with
    | none => simpa using h.digests
    | some c =>
      rw [List.nodup_append]
      refine ⟨h.digests, by simp, ?_⟩
      simpa using (hnew c hc).2

theorem sound_atomic (hashed : String → String) (op : Operation) (h : db.Sound) :
    ((transactions hashed).atomic db op).2.Sound := by
  obtain ⟨r, hr, _⟩ | ⟨d, hd, hreplay⟩ := atomic_cases hashed db op
  · rw [hr]
    exact h
  · rw [hd]
    exact sound_apply h (replay_writes hreplay).2.2

theorem holds_apply {id tokenDigest : String} {w : Nat} {revoked : Bool} (h : db.Holds id w tokenDigest revoked) :
    (db.apply d).Holds id w tokenDigest (revoked || d.revoked.any fun r => decide (w = r.workspaceId ∧ id ∈ r.ids)) := by
  obtain ⟨c, hc, rfl, rfl, rfl, rfl⟩ := h
  cases hr : d.revoked with
  | none =>
    refine ⟨c, ?_, rfl, rfl, rfl, by simp⟩
    simp [Db.apply, hr, hc]
  | some r =>
    refine ⟨c.revoke r, ?_, revoke_id c r, revoke_workspaceId c r, revoke_tokenDigest c r, ?_⟩
    · simp only [Db.apply, hr, Option.elim_some]
      exact List.mem_append_left _ (List.mem_map_of_mem hc)
    · rw [isSome_revoke, Option.any_some]

theorem holds_atomic {id tokenDigest : String} {w : Nat} {revoked : Bool} (hashed : String → String) (op : Operation)
    (h : db.Holds id w tokenDigest revoked) :
    ((transactions hashed).atomic db op).2.Holds id w tokenDigest
      (revoked || Ends w id (op, ((transactions hashed).atomic db op).1)) := by
  obtain ⟨r, hr, hreplay⟩ | ⟨d, hd, hreplay⟩ := atomic_cases hashed db op
  · have hends : Ends w id (op, r) = false := by
      obtain ⟨_, rfl⟩ | ⟨_, rfl⟩ := replay_error hreplay
      · cases op <;> rfl
      · cases op <;> rfl
    rw [hr, hends, Bool.or_false]
    exact h
  · rw [hd]
    have happlied := holds_apply (d := d) h
    rw [(replay_writes hreplay).1] at happlied
    cases op with
    | rotate w' id' secret now =>
      obtain ⟨c, hc, rfl, rfl, rfl, rfl⟩ := h
      have hends : (c.revokedAt.isSome || decide (c.workspaceId = w' ∧ c.id ∈ db.activeIds w')) =
          (c.revokedAt.isSome || decide (w' = c.workspaceId)) := by
        by_cases hw : w' = c.workspaceId
        · subst hw
          cases hrevoked : c.revokedAt with
          | some _ => rfl
          | none =>
            have hactive : c.id ∈ db.activeIds c.workspaceId :=
              List.mem_map.mpr ⟨c, List.mem_filter.mpr ⟨hc, by simp [hrevoked]⟩, rfl⟩
            simp [hactive]
        · have hw' : ¬ c.workspaceId = w' := fun heq => hw heq.symm
          simp [hw, hw']
      simp only [Operation.revocation, Option.any_some, hends] at happlied
      exact happlied
    | revoke w' id' now =>
      have hends : decide (w = w' ∧ id ∈ [id']) = (decide (w' = w) && decide (id' = id)) := by
        simp [eq_comm]
      simp only [Operation.revocation, Option.any_some, hends] at happlied
      exact happlied
    | _ => exact happlied

theorem holds_serial {id tokenDigest : String} {w : Nat} {revoked : Bool} {history : List (Operation × Result)} {db' : Db}
    (hserial : (transactions hashed).Serial db history db') (h : db.Holds id w tokenDigest revoked) :
    db'.Holds id w tokenDigest (revoked || history.any (Ends w id)) := by
  induction hserial with
  | nil => simpa using h
  | snoc op _ ih =>
    have := holds_atomic hashed op ih
    simpa [Bool.or_assoc] using this

/-! ## Authentication -/

theorem valid_token (x : Secret) : validCredentialToken x.token = true := by
  unfold validCredentialToken Secret.token
  have htext := x.fits
  simp [htext]

theorem authenticate_holds {id token : String} {w : Nat} {revoked : Bool} (hsound : db.Sound)
    (hvalid : validCredentialToken token = true) (h : db.Holds id w (hashed token) revoked) :
    db.authenticateToken hashed token = if revoked then none else some w := by
  obtain ⟨c, hc, rfl, rfl, hdigest, rfl⟩ := h
  have honly : ∀ c' ∈ db.credentials, c'.tokenDigest = hashed token → c' = c := by
    intro c' hc' heq
    exact List.inj_on_of_nodup_map hsound.digests hc' hc (heq.trans hdigest.symm)
  unfold Db.authenticateToken
  rw [if_pos hvalid]
  cases hrevoked : c.revokedAt with
  | some at' =>
    have hnone : (db.credentials.find? fun c => c.tokenDigest = hashed token && c.revokedAt.isNone) = none := by
      rw [List.find?_eq_none]
      intro c' hc' hfound
      simp only [Bool.and_eq_true, decide_eq_true_eq] at hfound
      obtain rfl := honly c' hc' hfound.1
      simp [hrevoked] at hfound
    rw [hnone]
    rfl
  | none =>
    have hfound : (db.credentials.find? fun c => c.tokenDigest = hashed token && c.revokedAt.isNone) = some c := by
      cases hfind : db.credentials.find? fun c => c.tokenDigest = hashed token && c.revokedAt.isNone with
      | none =>
        rw [List.find?_eq_none] at hfind
        exact absurd (by simp [hdigest, hrevoked]) (hfind c hc)
      | some c' =>
        have hprop := List.find?_some hfind
        simp only [Bool.and_eq_true, decide_eq_true_eq] at hprop
        rw [honly c' (List.mem_of_find?_eq_some hfind) hprop.1]
    rw [hfound]
    rfl

/-- The credential of a result is there, and has not been revoked. -/
theorem holds_issued {w : Nat} {id token : String} {now : Int} {v : Option Nat}
    (h : ((transactions hashed).atomic db op).1 = .credential w id token now v) :
    ((transactions hashed).atomic db op).2.Holds id w (hashed token) false ∧ ∃ secret : Secret, token = secret.token := by
  obtain ⟨r, hr, hreplay⟩ | ⟨d, hd, hreplay⟩ := atomic_cases hashed db op
  · rw [hr] at h
    obtain ⟨_, rfl⟩ | ⟨_, rfl⟩ := replay_error hreplay
    · cases h
    · cases h
  · rw [hd] at h ⊢
    have hnew := (replay_writes hreplay).2.1
    have hthere : ∀ c, op.newCredential hashed = some c → c ∈ (db.apply d).credentials := by
      intro c hc
      simp [Db.apply, hnew, hc]
    cases op with
    | provision w' policy id' secret now' =>
      cases h
      exact ⟨⟨_, hthere _ rfl, rfl, rfl, rfl, rfl⟩, secret, rfl⟩
    | issue w' id' secret now' =>
      cases h
      exact ⟨⟨_, hthere _ rfl, rfl, rfl, rfl, rfl⟩, secret, rfl⟩
    | rotate w' id' secret now' =>
      cases h
      exact ⟨⟨_, hthere _ rfl, rfl, rfl, rfl, rfl⟩, secret, rfl⟩
    | _ => cases h

/-- Every credential was there at the start or is the result of an operation. -/
theorem credential_origin {db₀ : Db} {history : List (Operation × Result)}
    (h : (transactions hashed).Serial db₀ history db) :
    ∀ c ∈ db.credentials, (∃ c₀ ∈ db₀.credentials, c₀.tokenDigest = c.tokenDigest) ∨
      ∃ op token now v, (op, Result.credential c.workspaceId c.id token now v) ∈ history ∧ c.tokenDigest = hashed token := by
  induction h with
  | nil => exact fun c hc => .inl ⟨c, hc, rfl⟩
  | @snoc db' history op hserial ih =>
    have hold : ∀ c ∈ db'.credentials, (∃ c₀ ∈ db₀.credentials, c₀.tokenDigest = c.tokenDigest) ∨
        ∃ op' token now v, (op', Result.credential c.workspaceId c.id token now v) ∈
          history ++ [(op, ((transactions hashed).atomic db' op).1)] ∧ c.tokenDigest = hashed token := by
      intro c hc
      refine (ih c hc).imp_right ?_
      rintro ⟨op', token, now, v, hmem, hdigest⟩
      exact ⟨op', token, now, v, List.mem_append_left _ hmem, hdigest⟩
    obtain ⟨r, hr, _⟩ | ⟨d, hd, hreplay⟩ := atomic_cases hashed db' op
    · rw [hr] at hold ⊢
      exact hold
    · rw [hd] at hold ⊢
      intro c hc
      obtain hkept | hnew := List.mem_append.mp hc
      · cases hrevoked : d.revoked with
        | none =>
          rw [hrevoked] at hkept
          exact hold c hkept
        | some r =>
          rw [hrevoked] at hkept
          obtain ⟨c', hc', rfl⟩ := List.mem_map.mp hkept
          have := hold c' hc'
          rwa [← revoke_id c' r, ← revoke_workspaceId c' r, ← revoke_tokenDigest c' r] at this
      · right
        rw [Option.mem_toList, (replay_writes hreplay).2.1] at hnew
        have hlast : (op, op.result d) ∈ history ++ [(op, op.result d)] := by simp
        cases op with
        | provision w id secret now =>
          cases hnew
          exact ⟨_, _, _, _, hlast, rfl⟩
        | issue w id secret now =>
          cases hnew
          exact ⟨_, _, _, _, hlast, rfl⟩
        | rotate w id secret now =>
          cases hnew
          exact ⟨_, _, _, _, hlast, rfl⟩
        | _ => cases hnew

theorem atomic_authenticate (token : String) :
    ((transactions hashed).atomic db (.authenticate token)).1 = .workspace (db.authenticateToken hashed token) := by
  have hreplay : (transactions hashed).replay db (.authenticate token) (Operation.actions (.authenticate token)) =
      .ok { (transactions hashed).blank with found := db.authenticateToken hashed token } := rfl
  rw [Transactions.atomic_ok hreplay]
  rfl

theorem mem_authenticated {token : String} {w : Nat} (h : db.authenticateToken hashed token = some w) :
    ∃ c ∈ db.credentials, c.tokenDigest = hashed token ∧ c.workspaceId = w := by
  unfold Db.authenticateToken at h
  split at h
  · obtain ⟨c, hc, rfl⟩ := Option.map_eq_some_iff.mp h
    have hfound := List.find?_some hc
    simp only [Bool.and_eq_true, decide_eq_true_eq] at hfound
    exact ⟨c, List.mem_of_find?_eq_some hc, hfound.1, rfl⟩
  · cases h

/-! ## Runs -/

/-- Under any interleaving of administration, submissions and requests, with aborts anywhere, all results and the tables
are those of one operation after the other, in the order in which they end. -/
theorem administration_serial {s₀ s : State} {es : List (Move Operation)}
    (hinit : (Schedule.system (transactions hashed)).init s₀)
    (h : Trace (Schedule.system (transactions hashed)) (fun _ _ => True) s₀ es s) :
    (transactions hashed).Serial s₀.db s.history s.db :=
  (Schedule.serial (isolated hashed) hinit h).serial

end Writes

def firstSecret : Secret where
  text := "aaaaaaaaaaaaaaaaaaaaaaaaaaaaaaaaaaaaaaaaaaa"
  fits := by decide +kernel

def secondSecret : Secret where
  text := "bbbbbbbbbbbbbbbbbbbbbbbbbbbbbbbbbbbbbbbbbbb"
  fits := by decide +kernel

def thirdSecret : Secret where
  text := "ccccccccccccccccccccccccccccccccccccccccccc"
  fits := by decide +kernel

/-- One workspace without credentials. -/
def oneWorkspace : State :=
  ⟨⟨⟨[1], [], [], [], [], [], [], 0, 0⟩, []⟩, fun _ => none, fun _ => none, []⟩

/-- A rotation makes an issue wait, while requests come with a credential issued before. -/
def racingAdministration : List (Move Operation) :=
  [.begin 0 (.issue 1 "c0" firstSecret 10), .act 0, .act 0, .act 0, .commit 0,
    .begin 1 (.rotate 1 "c1" secondSecret 20), .begin 2 (.issue 1 "c2" thirdSecret 21), .act 2, .act 1, .act 1, .act 1,
    .read (.authenticate firstSecret.token), .act 1, .act 1, .commit 1, .act 2, .act 2, .commit 2,
    .read (.authenticate firstSecret.token)]

def racingHistory : List (Operation × Result) :=
  [(.issue 1 "c0" firstSecret 10, .credential 1 "c0" firstSecret.token 10 none),
    (.authenticate firstSecret.token, .workspace (some 1)),
    (.rotate 1 "c1" secondSecret 20, .credential 1 "c1" secondSecret.token 20 none),
    (.issue 1 "c2" thirdSecret 21, .credential 1 "c2" thirdSecret.token 21 none),
    (.authenticate firstSecret.token, .workspace none)]

theorem racing_runs : ∃ s : State,
    Trace (Schedule.system (transactions id)) (fun _ _ => True) oneWorkspace racingAdministration s ∧
      s.history = racingHistory := by
  have hrun : (exec (Schedule.system (transactions id)) (fun _ _ => True) oneWorkspace racingAdministration).map
      (fun s => decide (s.history = racingHistory)) = some true := by decide +kernel
  obtain ⟨s, hs, hp⟩ := Option.map_eq_some_iff.mp hrun
  exact ⟨s, Trace.of_exec _ hs, of_decide_eq_true hp⟩

theorem administration_serial_racing : ∃ s : State,
    Trace (Schedule.system (transactions id)) (fun _ _ => True) oneWorkspace racingAdministration s ∧
      s.history = racingHistory ∧ (transactions id).Serial oneWorkspace.db racingHistory s.db := by
  obtain ⟨s, hs, hhistory⟩ := racing_runs
  have hserial := administration_serial ⟨fun _ => rfl, fun _ => rfl, rfl⟩ hs
  exact ⟨s, hs, hhistory, hhistory ▸ hserial⟩

section Lifetime
variable {hashed : String → String}

/-- A token is accepted from the end of the operation that issued it, for the workspace of that operation only, and until
a revocation of it or a rotation in its workspace has ended; and only digests that were there or were issued for the
workspace are accepted. -/
theorem credential_lifetime {s₀ s : State} {es : List (Move Operation)}
    (hinit : (Schedule.system (transactions hashed)).init s₀) (hsound : s₀.db.Sound)
    (h : Trace (Schedule.system (transactions hashed)) (fun _ _ => True) s₀ es s) :
    (∀ before between after op w id token now v x, s.history =
        before ++ (op, .credential w id token now v) :: between ++ (.authenticate token, .workspace x) :: after →
      x = if between.any (Ends w id) then none else some w) ∧
    ∀ before after token w, s.history = before ++ (.authenticate token, .workspace (some w)) :: after →
      (∃ c ∈ s₀.db.credentials, c.tokenDigest = hashed token) ∨
        ∃ op id token' now v, hashed token' = hashed token ∧ (op, Result.credential w id token' now v) ∈ before := by
  have hserial := (Schedule.serial (isolated hashed) hinit h).serial
  refine ⟨fun before between after op w id token now v x hhistory => ?_, fun before after token w hhistory => ?_⟩
  · have heq : s.history = (before ++ [(op, .credential w id token now v)] ++ between ++
        [(.authenticate token, .workspace x)]) ++ after := by simpa using hhistory
    rw [heq] at hserial
    obtain ⟨_, hrequested, _⟩ := hserial.split
    obtain ⟨db₃, hthree, hx, _⟩ := hrequested.last
    obtain ⟨db₂, htwo, hbetween⟩ := hthree.split
    obtain ⟨db₁, hone, hissued, rfl⟩ := htwo.last
    have hkeeps : ∀ db op, Db.Sound db → ((transactions hashed).atomic db op).2.Sound :=
      fun _ op hdb => sound_atomic hashed op hdb
    have hsound₁ := hone.keeps hkeeps hsound
    obtain ⟨hholds, secret, rfl⟩ := holds_issued hissued.symm
    have hlater := holds_serial hbetween hholds
    have hsound₂ := hbetween.keeps hkeeps (hkeeps _ op hsound₁)
    rw [atomic_authenticate, authenticate_holds hsound₂ (valid_token secret) hlater] at hx
    exact Result.workspace.inj hx
  · have heq : s.history = (before ++ [(.authenticate token, .workspace (some w))]) ++ after := by simpa using hhistory
    rw [heq] at hserial
    obtain ⟨_, hrequested, _⟩ := hserial.split
    obtain ⟨db₁, hbefore, hx, _⟩ := hrequested.last
    rw [atomic_authenticate] at hx
    obtain ⟨c, hc, hdigest, rfl⟩ := mem_authenticated (Result.workspace.inj hx).symm
    obtain ⟨c₀, hc₀, heq⟩ | ⟨op, token', now, v, hmem, heq⟩ := credential_origin hbefore c hc
    · exact .inl ⟨c₀, hc₀, heq.trans hdigest⟩
    · exact .inr ⟨op, c.id, token', now, v, heq.symm.trans hdigest, hmem⟩

end Lifetime

/-- The rotation ends the credential for the second request, not for the first. -/
theorem credential_lifetime_racing : ∃ s : State,
    Trace (Schedule.system (transactions id)) (fun _ _ => True) oneWorkspace racingAdministration s ∧
      (some 1 = if ([] : List (Operation × Result)).any (Ends 1 "c0") then none else some 1) ∧
      none = if ((racingHistory.drop 1).take 3).any (Ends 1 "c0") then none else some 1 := by
  obtain ⟨s, hs, hhistory⟩ := racing_runs
  have hsound : oneWorkspace.db.Sound := ⟨List.nodup_nil, List.nodup_nil⟩
  have hlifetime := (credential_lifetime ⟨fun _ => rfl, fun _ => rfl, rfl⟩ hsound hs).1
  exact ⟨s, hs, hlifetime [] [] (racingHistory.drop 2) _ 1 "c0" _ 10 none _ hhistory,
    hlifetime [] ((racingHistory.drop 1).take 3) [] _ 1 "c0" _ 10 none _ hhistory⟩

end ChessCrawl.Workspaces

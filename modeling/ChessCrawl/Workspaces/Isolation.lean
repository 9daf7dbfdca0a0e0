import ChessCrawl.Workspaces.Access

/-! Administration of workspaces is serial: concurrent provisions, issues, rotations, revocations, policy changes and
submissions have the results and the tables of one after the other. -/
namespace ChessCrawl.Workspaces
open ChessCrawl.Budget ChessCrawl.Lib
set_option autoImplicit false

variable {hashed : String → String} {db : Db} {op : Operation} {d d' e : Draft} {a : Action}

/-! ## What a draft comes from -/

def Db.Wants (hashed : String → String) (db : Db) (op : Operation) (b : Resource) : Prop :=
  ∃ a ∈ op.actions, b ∈ db.needs hashed a

/-- Every row of a draft is behind a lock that its operation needs. -/
structure Draft.From (hashed : String → String) (db : Db) (op : Operation) (d : Draft) : Prop where
  created : ∀ w, d.created = some w → w ∉ db.ledger.workspaces ∧ db.Wants hashed op (.row w)
  policy : ∀ row, d.policy = some row → db.Wants hashed op (.budget row.workspaceId)
  revoked : ∀ r, d.revoked = some r → db.Wants hashed op (.access r.workspaceId)
  credential : ∀ c, d.credential = some c → db.Wants hashed op (.access c.workspaceId) ∧
    db.Wants hashed op (.credentialId c.id) ∧ db.Wants hashed op (.tokenDigest c.tokenDigest)

theorem policyOf_workspaceId {L : Ledger} {w : Nat} {row : WorkspacePolicy} (h : L.policyOf w = some row) :
    row.workspaceId = w := by
  simpa using List.find?_some h

theorem act_from (ha : a ∈ op.actions) (hact : db.act hashed d a = .ok d') (h : d.From hashed db op) :
    d'.From hashed db op := by
  have hwants : ∀ b ∈ db.needs hashed a, db.Wants hashed op b := fun b hb => ⟨a, ha, hb⟩
  cases a with
  | require w =>
    simp only [Db.act] at hact
    split at hact
    · cases hact
      exact h
    · cases hact
  | lockAccess w =>
    cases hact
    exact h
  | lockBudget w =>
    cases hact
    exact h
  | create w =>
    simp only [Db.act] at hact
    split at hact
    · cases hact
    · rename_i hnew
      cases hact
      refine ⟨fun w' hw' => ?_, h.policy, h.revoked, h.credential⟩
      obtain rfl := Option.some.inj hw'
      exact ⟨hnew, hwants _ (by simp [Db.needs, hnew])⟩
  | enter w =>
    simp only [Db.act, Except.ok.injEq] at hact
    subst hact
    split
    · exact h
    · rename_i hnew
      refine ⟨fun w' hw' => ?_, h.policy, h.revoked, h.credential⟩
      obtain rfl := Option.some.inj hw'
      exact ⟨hnew, hwants _ (by simp [Db.needs, hnew])⟩
  | install w policy managed =>
    cases hact
    refine ⟨h.created, fun row hrow => ?_, h.revoked, h.credential⟩
    rw [policyOf_workspaceId hrow]
    exact hwants _ (by simp [Db.needs])
  | replace w policy expectedVersion =>
    simp only [Db.act] at hact
    split at hact
    · cases hact
      refine ⟨h.created, fun row hrow => ?_, h.revoked, h.credential⟩
      rw [policyOf_workspaceId hrow]
      exact hwants _ (by simp [Db.needs])
    · cases hact
  | revokeAll w now =>
    cases hact
    refine ⟨h.created, h.policy, fun r hr => ?_, h.credential⟩
    obtain rfl := Option.some.inj hr
    exact hwants _ (by simp [Db.needs])
  | revokeOne w id now =>
    simp only [Db.act] at hact
    split at hact
    · cases hact
    · cases hact
      refine ⟨h.created, h.policy, fun r hr => ?_, h.credential⟩
      obtain rfl := Option.some.inj hr
      exact hwants _ (by simp [Db.needs])
  | insert w id secret now =>
    simp only [Db.act] at hact
    split at hact
    · cases hact
    · cases hact
      refine ⟨h.created, h.policy, h.revoked, fun c hc => ?_⟩
      obtain rfl := Option.some.inj hc
      exact ⟨hwants _ (by simp [Db.needs]), hwants _ (by simp [Db.needs]), hwants _ (by simp [Db.needs])⟩
  | lookup token =>
    cases hact
    exact ⟨h.created, h.policy, h.revoked, h.credential⟩

theorem from_of_replay (h : (transactions hashed).replay db op op.actions = .ok d) : d.From hashed db op := by
  refine Transactions.replay_keeps (I := fun d => d.From hashed db op) ?_ (fun a ha d d' => act_from ha) h
  constructor <;> simp [transactions]

/-! ## What a commit leaves -/

theorem mem_workspaces_apply {w : Nat} : w ∈ (db.apply e).ledger.workspaces ↔ e.created = some w ∨ w ∈ db.ledger.workspaces := by
  simp [Db.apply, Option.mem_toList]

theorem find_putPolicy {policies : List WorkspacePolicy} {row : WorkspacePolicy} {w : Nat} (hne : row.workspaceId ≠ w) :
    (putPolicy policies row).find? (fun r => r.workspaceId = w) = policies.find? fun r => r.workspaceId = w := by
  have hmap : (policies.map fun r => if r.workspaceId = row.workspaceId then row else r).find? (fun r => r.workspaceId = w) =
      policies.find? fun r => r.workspaceId = w := by
    induction policies with
    | nil => rfl
    | cons r policies ih =>
      rw [List.map_cons, List.find?_cons, List.find?_cons, ih]
      by_cases hr : r.workspaceId = row.workspaceId
      · simp [hr, hne]
      · simp [hr]
  unfold putPolicy
  split
  · exact hmap
  · rw [List.find?_append]
    simp [hne]

theorem policyOf_apply {w : Nat} (h : ∀ row, e.policy = some row → row.workspaceId ≠ w) :
    (db.apply e).ledger.policyOf w = db.ledger.policyOf w := by
  unfold Ledger.policyOf Db.apply
  cases hrow : e.policy with
  | none => rfl
  | some row => exact find_putPolicy (h row hrow)

theorem revoke_id (c : Credential) (r : Revocation) : (c.revoke r).id = c.id := by
  unfold Credential.revoke
  split <;> rfl

theorem revoke_tokenDigest (c : Credential) (r : Revocation) : (c.revoke r).tokenDigest = c.tokenDigest := by
  unfold Credential.revoke
  split <;> rfl

theorem revoke_workspaceId (c : Credential) (r : Revocation) : (c.revoke r).workspaceId = c.workspaceId := by
  unfold Credential.revoke
  split <;> rfl

/-- The credentials of a workspace in which the draft has written none. -/
theorem credentials_apply (db : Db) {w : Nat} (hrevoked : ∀ r, e.revoked = some r → r.workspaceId ≠ w)
    (hcredential : ∀ c, e.credential = some c → c.workspaceId ≠ w) :
    ((db.apply e).credentials.filter fun c => c.workspaceId = w) = db.credentials.filter fun c => c.workspaceId = w := by
  have hmap : ∀ r : Revocation, r.workspaceId ≠ w → ((db.credentials.map fun c => c.revoke r).filter fun c => c.workspaceId = w) =
      db.credentials.filter fun c => c.workspaceId = w := by
    intro r hr
    induction db.credentials with
    | nil => rfl
    | cons c cs ih =>
      rw [List.map_cons, List.filter_cons, List.filter_cons, ih, revoke_workspaceId]
      by_cases hc : c.workspaceId = w
      · have hsame : c.revoke r = c := by
          unfold Credential.revoke
          rw [if_neg]
          rintro ⟨heq, _⟩
          exact hr (heq.symm.trans hc)
        simp [hc, hsame]
      · simp [hc]
  have hnew : (e.credential.toList.filter fun c => c.workspaceId = w) = [] := by
    cases hc : e.credential with
    | none => rfl
    | some c => simp [hcredential c hc]
  unfold Db.apply
  rw [List.filter_append, hnew, List.append_nil]
  cases hr : e.revoked with
  | none => rfl
  | some r => exact hmap r (hrevoked r hr)

/-- An id and a digest of no other draft are as free as before. -/
theorem taken_apply {id digest : String} (hcredential : ∀ c, e.credential = some c → c.id ≠ id ∧ c.tokenDigest ≠ digest) :
    ((db.apply e).credentials.any fun c => c.id = id || c.tokenDigest = digest) =
      db.credentials.any fun c => c.id = id || c.tokenDigest = digest := by
  have hnew : (e.credential.toList.any fun c => c.id = id || c.tokenDigest = digest) = false := by
    cases hc : e.credential with
    | none => rfl
    | some c => simp [hcredential c hc]
  unfold Db.apply
  rw [List.any_append, hnew, Bool.or_false]
  cases hr : e.revoked with
  | none => rfl
  | some r =>
    simp only [Option.elim_some, List.any_map]
    congr 1
    funext c
    simp [revoke_id, revoke_tokenDigest]

/-! ## Policies -/

/-- The row that `_workspace_policy` leaves. -/
def nextPolicy (row : WorkspacePolicy) (policy : BudgetPolicy) (tighten : Bool) : WorkspacePolicy :=
  if tighten && !row.managed then
    let effective := row.policy.tighten policy PolicyField.workspace
    if effective.same row.policy then row
    else { row with policy := effective, managed := false, version := row.version + 1 }
  else row

theorem policyOf_replace (L : Ledger) (w : Nat) (policy : BudgetPolicy) (managed : Bool) :
    (L.replaceWorkspacePolicy w policy managed).policyOf w = (L.policyOf w).map fun r =>
      { r with policy := policy, managed := managed, version := r.version + 1 } := by
  unfold Ledger.policyOf Ledger.replaceWorkspacePolicy
  induction L.policies with
  | nil => rfl
  | cons r policies ih =>
    by_cases hr : r.workspaceId = w
    · simp [hr]
    · simpa [hr] using ih

theorem policyOf_workspacePolicy (L : Ledger) (w : Nat) (policy : BudgetPolicy) (tighten managed : Bool) :
    (L.workspacePolicy w policy tighten managed).2.policyOf w =
      some (nextPolicy ((L.policyOf w).getD ⟨w, policy, managed, 1⟩) policy tighten) := by
  have hstep : ∀ (M : Ledger) (row : WorkspacePolicy), M.policyOf w = some row →
      (if tighten && !row.managed then
        (if (row.policy.tighten policy PolicyField.workspace).same row.policy then
          (row.policy.tighten policy PolicyField.workspace, M)
        else (row.policy.tighten policy PolicyField.workspace,
          M.replaceWorkspacePolicy w (row.policy.tighten policy PolicyField.workspace) false))
      else (row.policy, M)).2.policyOf w = some (nextPolicy row policy tighten) := by
    intro M row hrow
    unfold nextPolicy
    by_cases houter : (tighten && !row.managed) = true
    · rw [if_pos houter, if_pos houter]
      by_cases hsame : (row.policy.tighten policy PolicyField.workspace).same row.policy = true
      · simp only [hsame, if_true]
        exact hrow
      · rw [if_neg hsame, policyOf_replace, hrow]
        simp [hsame]
    · rw [if_neg houter, if_neg houter]
      exact hrow
  unfold Ledger.workspacePolicy
  cases hrow : L.policyOf w with
  | some row => exact hstep L row hrow
  | none =>
    refine hstep _ ⟨w, policy, managed, 1⟩ ?_
    unfold Ledger.policyOf at hrow ⊢
    rw [List.find?_append, hrow]
    simp

theorem setWorkspacePolicy_congr {L M L' : Ledger} {w : Nat} {policy : BudgetPolicy} {expectedVersion : Int}
    {version : Nat} (h : L.setWorkspacePolicy w policy expectedVersion = .ok (version, L'))
    (hpolicy : M.policyOf w = L.policyOf w) (hworkspaces : w ∈ L.workspaces → w ∈ M.workspaces) :
    ∃ M', M.setWorkspacePolicy w policy expectedVersion = .ok (version, M') ∧ M'.policyOf w = L'.policyOf w := by
  unfold Ledger.setWorkspacePolicy at h ⊢
  split at h
  · cases h
  · rename_i hrange
    rw [if_neg hrange, hpolicy]
    cases hrow : L.policyOf w with
    | none =>
      simp only [hrow] at h ⊢
      split at h
      · rename_i hzero
        split at h
        · rename_i hmem
          obtain ⟨rfl, rfl⟩ := Prod.mk.inj (Except.ok.inj h)
          rw [if_pos hzero, if_pos (hworkspaces hmem)]
          refine ⟨_, rfl, ?_⟩
          rw [policyOf_workspacePolicy, policyOf_workspacePolicy, hpolicy]
        · cases h
      · cases h
    | some row =>
      simp only [hrow] at h ⊢
      split at h
      · rename_i hversion
        obtain ⟨rfl, rfl⟩ := Prod.mk.inj (Except.ok.inj h)
        rw [if_pos hversion]
        refine ⟨_, rfl, ?_⟩
        rw [policyOf_replace, policyOf_replace, hpolicy]
      · cases h

/-! ## Isolation -/

theorem act_apply (ha : ∀ token, a ≠ .lookup token) (hact : db.act hashed d a = .ok d') (he : e.From hashed db op)
    (hfree : ∀ b ∈ db.needs hashed a, ¬ db.Wants hashed op b) : (db.apply e).act hashed d a = .ok d' := by
  have haccess : ∀ w, Resource.access w ∈ db.needs hashed a → (∀ r, e.revoked = some r → r.workspaceId ≠ w) ∧
      ∀ c, e.credential = some c → c.workspaceId ≠ w := by
    intro w hw
    refine ⟨fun r hr => ?_, fun c hc => ?_⟩
    · rintro rfl
      exact hfree _ hw (he.revoked r hr)
    · rintro rfl
      exact hfree _ hw (he.credential c hc).1
  have hbudget : ∀ w, Resource.budget w ∈ db.needs hashed a → (db.apply e).ledger.policyOf w = db.ledger.policyOf w := by
    intro w hw
    refine policyOf_apply fun row hrow => ?_
    rintro rfl
    exact hfree _ hw (he.policy row hrow)
  have hrow : ∀ w, w ∉ db.ledger.workspaces → Resource.row w ∈ db.needs hashed a → w ∉ (db.apply e).ledger.workspaces := by
    intro w hnew hw hmem
    obtain hcreated | hold := mem_workspaces_apply.mp hmem
    · exact hfree _ hw (he.created w hcreated).2
    · exact hnew hold
  cases a with
  | require w =>
    simp only [Db.act, mem_workspaces_apply] at hact ⊢
    split at hact
    · rename_i hthere
      rw [if_pos (hthere.imp_left Or.inr)]
      exact hact
    · cases hact
  | lockAccess w => exact hact
  | lockBudget w => exact hact
  | create w =>
    simp only [Db.act] at hact ⊢
    split at hact
    · cases hact
    · rename_i hnew
      rw [if_neg (hrow w hnew (by simp [Db.needs, hnew]))]
      exact hact
  | enter w =>
    simp only [Db.act] at hact ⊢
    by_cases hmem : w ∈ db.ledger.workspaces
    · rw [if_pos hmem] at hact
      rw [if_pos (mem_workspaces_apply.mpr (.inr hmem))]
      exact hact
    · rw [if_neg hmem] at hact
      rw [if_neg (hrow w hmem (by simp [Db.needs, hmem]))]
      exact hact
  | install w policy managed =>
    simp only [Db.act, Ledger.installWorkspacePolicy, policyOf_workspacePolicy, hbudget w (by simp [Db.needs])] at hact ⊢
    exact hact
  | replace w policy expectedVersion =>
    simp only [Db.act] at hact ⊢
    split at hact
    · rename_i version L hset
      obtain ⟨M, hM, hsame⟩ := setWorkspacePolicy_congr hset (hbudget w (by simp [Db.needs]))
        fun hmem => mem_workspaces_apply.mpr (.inr hmem)
      rw [hM]
      simp only [hsame]
      exact hact
    · cases hact
  | revokeAll w now =>
    obtain ⟨hrevoked, hcredential⟩ := haccess w (by simp [Db.needs])
    have hsame := credentials_apply db hrevoked hcredential
    have hactive : ((db.apply e).credentials.filter fun c => c.workspaceId = w && c.revokedAt.isNone) =
        db.credentials.filter fun c => c.workspaceId = w && c.revokedAt.isNone := by
      have := congrArg (fun cs => cs.filter fun c : Credential => c.revokedAt.isNone) hsame
      simpa [List.filter_filter, Bool.and_comm] using this
    simp only [Db.act, hactive] at hact ⊢
    exact hact
  | revokeOne w id now =>
    obtain ⟨hrevoked, hcredential⟩ := haccess w (by simp [Db.needs])
    have hsame := credentials_apply db hrevoked hcredential
    have hfound : ((db.apply e).credentials.find? fun c => c.workspaceId = w && c.id = id) =
        db.credentials.find? fun c => c.workspaceId = w && c.id = id := by
      have := congrArg (fun cs => cs.find? fun c : Credential => decide (c.id = id)) hsame
      simpa [List.find?_filter] using this
    simp only [Db.act, hfound] at hact ⊢
    exact hact
  | insert w id secret now =>
    have hcredential : ∀ c, e.credential = some c → c.id ≠ id ∧ c.tokenDigest ≠ hashed secret.token := by
      intro c hc
      obtain ⟨_, hid, hdigest⟩ := he.credential c hc
      refine ⟨?_, fun heq => ?_⟩
      · rintro rfl
        exact hfree _ (by simp [Db.needs]) hid
      · rw [heq] at hdigest
        exact hfree _ (by simp [Db.needs]) hdigest
    simp only [Db.act, taken_apply hcredential] at hact ⊢
    exact hact
  | lookup token => exact absurd rfl (ha token)

theorem isolated (hashed : String → String) : (transactions hashed).Isolated := by
  refine ⟨fun db op hop => ?_, fun db op op' e a he b hb => ?_, fun db op op' a d d' e hop ha hact he hfree => ?_⟩
  · cases op with
    | authenticate token =>
      have hreplay : (transactions hashed).replay db (.authenticate token) (Operation.actions (.authenticate token)) =
          .ok { (transactions hashed).blank with found := db.authenticateToken hashed token } := rfl
      rw [Transactions.atomic_ok hreplay]
      simp [transactions, Db.apply]
    | _ => cases hop
  · cases a with
    | create w =>
      simp only [transactions, Db.needs] at hb ⊢
      split at hb
      · cases hb
      · rename_i hnew
        rwa [if_neg fun hmem => hnew (mem_workspaces_apply.mpr (.inr hmem))]
    | enter w =>
      simp only [transactions, Db.needs] at hb ⊢
      split at hb
      · cases hb
      · rename_i hnew
        rwa [if_neg fun hmem => hnew (mem_workspaces_apply.mpr (.inr hmem))]
    | _ => exact hb
  · refine act_apply (fun token => ?_) hact (from_of_replay he) ?_
    · rintro rfl
      cases op <;> simp [transactions, Operation.actions, Operation.isRead] at ha hop
    · rintro b hb ⟨a', ha', hb'⟩
      exact hfree b hb a' ha' hb'

end ChessCrawl.Workspaces

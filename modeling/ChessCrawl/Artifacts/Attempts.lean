import ChessCrawl.Artifacts.Steps

/-! Each attempt has objects of its own: what is stored and registered under an attempt are parts of the body that its
session renders, so that earlier attempts leave nothing in its way. -/
namespace ChessCrawl.Artifacts
open ChessCrawl.Lib
set_option autoImplicit false

variable {cd : Codec} {s t : State} {n job generation : Nat}

/-! ## The invariant -/

/-- The body that the session cuts into parts. -/
def Session.body : Session → Option Bytes
  | .build _ _ (.writing x _ _ _) => some x.body
  | .build _ _ (.published x _ _ _ _) => some x.body
  | .build _ _ (.inserting x _ _ _ _) => some x.body
  | .build _ _ (.sealing x _) => some x.body
  | _ => none

/-- The parts that it has yet to store or to register. -/
def Session.pending : Session → List Bytes
  | .build _ _ (.writing _ _ _ rest) => partsOf rest
  | .build _ _ (.published _ _ _ chunk rest) => chunk :: partsOf rest
  | .build _ _ (.inserting _ _ _ chunk rest) => chunk :: partsOf rest
  | _ => []

/-- The registry row of a part. -/
def partRow (cd : Codec) (part : Bytes) : ObjectRow :=
  ⟨cd.digest part, cd.digest (cd.compress part), part.length, (cd.compress part).length⟩

/-- The key is of a part of the session's body. -/
def Session.Holds (cd : Codec) (x : Session) (key : Key) (part : Bytes) : Prop :=
  ∃ body, x.body = some body ∧ part ∈ partsOf body ∧ key.storedHash = cd.digest (cd.compress part)

structure Fresh (cd : Codec) (s : State) : Prop where
  unique : ∀ n m x y job generation, s.sessions n = some x → s.sessions m = some y → x.On job generation →
    y.On job generation → n = m
  cut : ∀ n x body, s.sessions n = some x → x.body = some body → ∀ part ∈ x.pending, part ∈ partsOf body
  bounded : ∀ key, (s.store key).isSome = true ∨ (s.db.objects key).isSome = true →
    key.attempt ≤ (s.jobs key.jobId).generation
  stored : ∀ n x key held, s.sessions n = some x → x.On key.jobId key.attempt → s.store key = some held →
    ∃ part, x.Holds cd key part ∧ held = cd.compress part
  registered : ∀ n x key row, s.sessions n = some x → x.On key.jobId key.attempt → s.db.objects key = some row →
    ∃ part, x.Holds cd key part ∧ row = partRow cd part

theorem Inv.on_le (hs : Inv cd s) {x : Session} (hx : s.sessions n = some x) (hon : x.On job generation) :
    generation ≤ (s.jobs job).generation := by
  have hok := hs.sessions n x hx
  cases x with
  | build j g pc =>
    obtain ⟨rfl, rfl⟩ := hon
    exact hok.2.1
  | buildDrop j g pc =>
    obtain ⟨rfl, rfl⟩ := hon
    exact hok.2.1
  | _ => exact absurd hon id

/-! ## Steps -/

/-- A step of session `n`, which goes on as `next` with the body it has. -/
theorem Fresh.next (hs : Inv cd s) (hf : Fresh cd s) {x : Session} (hx : s.sessions n = some x) (next : Option Session)
    (hsessions : t.sessions = Function.update s.sessions n next) (hjobs : t.jobs = s.jobs)
    (hon : ∀ y job generation, next = some y → y.On job generation → x.On job generation)
    (hbody : ∀ y body, next = some y → x.body = some body → y.body = some body)
    (hcut : ∀ y body, next = some y → y.body = some body → ∀ part ∈ y.pending, part ∈ partsOf body)
    (hstore : ∀ key held, t.store key = some held → s.store key = some held ∨
      x.On key.jobId key.attempt ∧ ∃ part, x.Holds cd key part ∧ held = cd.compress part)
    (hobjects : ∀ key row, t.db.objects key = some row → s.db.objects key = some row ∨
      x.On key.jobId key.attempt ∧ ∃ part, x.Holds cd key part ∧ row = partRow cd part) : Fresh cd t := by
  have hself : t.sessions n = next := by
    rw [hsessions]
    exact Function.update_self n _ _
  have hother : ∀ m, m ≠ n → t.sessions m = s.sessions m := by
    intro m hm
    rw [hsessions]
    exact Function.update_of_ne hm _ _
  have hback : ∀ m y j g, t.sessions m = some y → y.On j g → ∃ y', s.sessions m = some y' ∧ y'.On j g ∧
      (∀ key part, y'.Holds cd key part → y.Holds cd key part) := by
    intro m y j g hy hyon
    by_cases hm : m = n
    · subst hm
      refine ⟨x, hx, hon y j g (hself.symm.trans hy) hyon, fun key part hholds => ?_⟩
      obtain ⟨body, hxbody, hrest⟩ := hholds
      exact ⟨body, hbody y body (hself.symm.trans hy) hxbody, hrest⟩
    · exact ⟨y, (hother m hm).symm.trans hy, hyon, fun _ _ h => h⟩
  refine ⟨fun k m y z j g hy hz hyon hzon => ?_, fun m y body hy hybody => ?_, fun key hkey => ?_,
    fun m y key held hy hyon hheld => ?_, fun m y key row hy hyon hrow => ?_⟩
  · obtain ⟨y', hy', hyon', _⟩ := hback k y j g hy hyon
    obtain ⟨z', hz', hzon', _⟩ := hback m z j g hz hzon
    exact hf.unique k m y' z' j g hy' hz' hyon' hzon'
  · by_cases hm : m = n
    · subst hm
      exact hcut y body (hself.symm.trans hy) hybody
    · exact hf.cut m y body ((hother m hm).symm.trans hy) hybody
  · rw [hjobs]
    rcases hkey with hkey | hkey
    · obtain ⟨held, hheld⟩ := Option.isSome_iff_exists.mp hkey
      rcases hstore key held hheld with hold | ⟨hnew, _⟩
      · exact hf.bounded key (.inl (Option.isSome_iff_exists.mpr ⟨held, hold⟩))
      · exact hs.on_le hx hnew
    · obtain ⟨row, hrow⟩ := Option.isSome_iff_exists.mp hkey
      rcases hobjects key row hrow with hold | ⟨hnew, _⟩
      · exact hf.bounded key (.inr (Option.isSome_iff_exists.mpr ⟨row, hold⟩))
      · exact hs.on_le hx hnew
  · obtain ⟨y', hy', hyon', hholds⟩ := hback m y _ _ hy hyon
    rcases hstore key held hheld with hold | ⟨hnew, part, hpart, heq⟩
    · obtain ⟨part, hpart, heq⟩ := hf.stored m y' key held hy' hyon' hold
      exact ⟨part, hholds key part hpart, heq⟩
    · obtain rfl := hf.unique n m x y' _ _ hx hy' hnew hyon'
      rw [hx] at hy'
      cases hy'
      exact ⟨part, hholds key part hpart, heq⟩
  · obtain ⟨y', hy', hyon', hholds⟩ := hback m y _ _ hy hyon
    rcases hobjects key row hrow with hold | ⟨hnew, part, hpart, heq⟩
    · obtain ⟨part, hpart, heq⟩ := hf.registered m y' key row hy' hyon' hold
      exact ⟨part, hholds key part hpart, heq⟩
    · obtain rfl := hf.unique n m x y' _ _ hx hy' hnew hyon'
      rw [hx] at hy'
      cases hy'
      exact ⟨part, hholds key part hpart, heq⟩

theorem Fresh.ends (hf : Fresh cd s) (hs : Inv cd s) (n : Nat) : Fresh cd (s.ends n) := by
  cases hx : s.sessions n with
  | none =>
    have hsame : Function.update s.sessions n none = s.sessions := by
      rw [← hx]
      exact Function.update_eq_self n s.sessions
    have hsessions : (s.ends n).sessions = s.sessions := hsame
    refine ⟨?_, ?_, hf.bounded, ?_, ?_⟩
    · rw [hsessions]
      exact hf.unique
    · rw [hsessions]
      exact hf.cut
    · rw [hsessions]
      exact hf.stored
    · rw [hsessions]
      exact hf.registered
  | some x =>
    exact hf.next hs hx none rfl rfl (fun _ _ _ h => by cases h) (fun _ _ h => by cases h) (fun _ _ h => by cases h)
      (fun _ _ h => .inl h) fun _ _ h => .inl h

/-- A move that stores and registers nothing. -/
theorem Fresh.move (hf : Fresh cd s) (hs : Inv cd s) {x y : Session} (hx : s.sessions n = some x)
    (hsessions : t.sessions = Function.update s.sessions n (some y)) (hjobs : t.jobs = s.jobs)
    (hstore : t.store = s.store) (hobjects : t.db.objects = s.db.objects)
    (hon : ∀ job generation, y.On job generation → x.On job generation)
    (hbody : ∀ body, x.body = some body → y.body = some body)
    (hcut : ∀ body, y.body = some body → ∀ part ∈ y.pending, part ∈ partsOf body) : Fresh cd t := by
  refine hf.next hs hx (some y) hsessions hjobs (fun z j g hz => ?_) (fun z body hz => ?_) (fun z body hz => ?_)
    (fun _ _ h => .inl (hstore ▸ h)) fun _ _ h => .inl (hobjects ▸ h)
  · cases hz
    exact hon j g
  · cases hz
    exact hbody body
  · cases hz
    exact hcut body

/-- The same for a session that has no body. -/
theorem Fresh.idle (hf : Fresh cd s) (hs : Inv cd s) {x y : Session} (hx : s.sessions n = some x)
    (hsessions : t.sessions = Function.update s.sessions n (some y)) (hjobs : t.jobs = s.jobs)
    (hstore : t.store = s.store) (hobjects : t.db.objects = s.db.objects)
    (hon : ∀ job generation, y.On job generation → x.On job generation) (hxbody : x.body = none)
    (hybody : y.body = none) : Fresh cd t := by
  refine hf.move hs hx hsessions hjobs hstore hobjects hon (fun body hbody => ?_) fun body hbody => ?_
  · rw [hxbody] at hbody
    cases hbody
  · rw [hybody] at hbody
    cases hbody

/-- A transaction of such a session that registers nothing. -/
theorem Fresh.commit (hf : Fresh cd s) (hs : Inv cd s) {x y : Session} {db : Option Db} (hx : s.sessions n = some x)
    (hdb : ∀ d, db = some d → d.objects = s.db.objects)
    (hon : ∀ job generation, y.On job generation → x.On job generation) (hxbody : x.body = none)
    (hybody : y.body = none) : Fresh cd (s.commit n db (some y)) := by
  cases db with
  | none => exact hf.ends hs n
  | some d => exact hf.idle hs hx rfl rfl rfl (hdb d rfl) hon hxbody hybody

theorem removeChunk_objects {db db' : Db} {ordinal : Nat} (h : db.removeChunk job ordinal = some db') :
    db'.objects = db.objects := by
  rcases removeChunk_spec h with rfl | ⟨_, _, _, rfl⟩
  · rfl
  · rfl

theorem Fresh.deletion_step (hf : Fresh cd s) (hs : Inv cd s) {pc : DeletePc} {fenced : Bool} {i : Input}
    {at' : DeletePc → Session} {done : Session} (hx : s.sessions n = some (at' pc))
    (hon : ∀ pc pc' job generation, (at' pc').On job generation → (at' pc).On job generation)
    (hdone : ∀ pc job generation, done.On job generation → (at' pc).On job generation)
    (hbody : ∀ pc, (at' pc).body = none) (hdone' : done.body = none)
    (h : pc.advance s n job fenced i at' done = some t) : Fresh cd t := by
  cases pc with
  | deleting rows =>
    cases rows with
    | nil =>
      cases h
      exact hf.idle hs hx rfl rfl rfl rfl (hdone _) (hbody _) hdone'
    | cons row rows =>
      cases h
      split
      · exact hf.idle hs hx rfl rfl rfl rfl (hon _ _) (hbody _) (hbody _)
      · exact hf.ends hs n
  | authorized row rows =>
    cases h
    split
    · exact hf.ends hs n
    · exact hf.idle hs hx rfl rfl rfl rfl (hon _ _) (hbody _) (hbody _)
  | sent row rows =>
    rw [DeletePc.advance] at h
    split at h <;> cases h
    exact hf.idle hs hx rfl rfl rfl rfl (hon _ _) (hbody _) (hbody _)
  | deleted row rows =>
    cases h
    split
    · exact hf.commit hs hx (fun d hd => removeChunk_objects hd) (hon _ _) (hbody _) (hbody _)
    · exact hf.ends hs n

theorem expire_objects {db db' : Db} (h : db.expire job = some db') : db'.objects = db.objects := by
  obtain ⟨a, ha, hrest⟩ := Option.bind_eq_some_iff.mp h
  split at hrest <;> cases hrest
  rfl

theorem publish_objects {db db' : Db} {m : Manifest} (h : db.publish job m = some db') : db'.objects = db.objects := by
  obtain ⟨a, ha, hrest⟩ := Option.bind_eq_some_iff.mp h
  split at hrest <;> cases hrest
  rfl

theorem Fresh.prune_step (hf : Fresh cd s) (hs : Inv cd s) {ws : String} {pc : PrunePc} {i : Input}
    (hx : s.sessions n = some (.prune ws pc)) (h : pc.advance s n ws i = some t) : Fresh cd t := by
  cases pc with
  | marking before limit =>
    rw [PrunePc.advance] at h
    split at h
    · cases h
    · split at h <;> cases h
      exact hf.idle hs hx rfl rfl rfl rfl (fun _ _ h => h) rfl rfl
  | marked jobs =>
    cases h
    exact hf.idle hs hx rfl rfl rfl rfl (fun _ _ h => h) rfl rfl
  | pruning jobs =>
    cases jobs with
    | nil =>
      cases h
      exact hf.ends hs n
    | cons job jobs =>
      cases h
      exact hf.idle hs hx rfl rfl rfl rfl (fun _ _ h => h) rfl rfl
  | expiring job jobs =>
    cases h
    split
    · exact hf.idle hs hx rfl rfl rfl rfl (fun _ _ h => h) rfl rfl
    · exact hf.idle hs hx rfl rfl rfl rfl (fun _ _ h => h) rfl rfl
  | voiding job jobs =>
    rw [PrunePc.advance] at h
    split at h <;> cases h
    exact hf.commit hs hx (fun d hd => expire_objects hd) (fun _ _ h => h) rfl rfl

/-- The parts of what is left are parts of the whole. -/
theorem partsOf_mono {body rest : Bytes} (h : ∀ part ∈ partsOf rest, part ∈ partsOf body) (hrest : rest ≠ []) :
    rest.take chunkBytes ∈ partsOf body ∧ ∀ part ∈ partsOf (rest.drop chunkBytes), part ∈ partsOf body := by
  rw [partsOf_cons hrest] at h
  exact ⟨h _ List.mem_cons_self, fun part hpart => h part (List.mem_cons_of_mem _ hpart)⟩

/-- The registry after a publication. -/
theorem publication_objects {db db' : Db} {key : Key} {row : ObjectRow} {ordinal : Nat}
    (h : ((db.registerArchiveObject key row).bind fun d => d.insertChunk job ordinal key) = some db') (k : Key)
    (r : ObjectRow) (hr : db'.objects k = some r) : db.objects k = some r ∨ k = key ∧ r = row := by
  obtain ⟨d, hd, hinsert⟩ := Option.bind_eq_some_iff.mp h
  have hobjects : db'.objects = d.objects := by
    unfold Db.insertChunk at hinsert
    dsimp only at hinsert
    split at hinsert <;> cases hinsert
    rfl
  rw [hobjects] at hr
  unfold Db.registerArchiveObject at hd
  split at hd
  · cases hd
    by_cases hk : k = key
    · subst hk
      exact .inr ⟨rfl, (Option.some.inj ((Function.update_self k _ _).symm.trans hr)).symm⟩
    · exact .inl ((Function.update_of_ne hk _ _).symm.trans hr)
  · split at hd <;> cases hd
    exact .inl hr

theorem Fresh.build_step (hf : Fresh cd s) (hs : Inv cd s) {pc : BuildPc} {i : Input}
    (hx : s.sessions n = some (.build job generation pc)) (h : pc.advance cd s n job generation i = some t) :
    Fresh cd t := by
  cases pc with
  | opened =>
    cases h
    split
    · exact hf.ends hs n
    · exact hf.idle hs hx rfl rfl rfl rfl (fun _ _ h => h) rfl rfl
  | starting =>
    cases h
    split
    · exact hf.idle hs hx rfl rfl rfl rfl (fun _ _ h => h) rfl rfl
    · exact hf.ends hs n
  | started =>
    cases h
    refine hf.commit hs hx (fun d hd => ?_) (fun _ _ h => h) rfl rfl
    cases hd
    unfold Db.setState
    split <;> rfl
  | clearing =>
    rw [BuildPc.advance] at h
    split at h <;> cases h
    · exact hf.idle hs hx rfl rfl rfl rfl (fun _ _ h => h) rfl rfl
    · exact hf.idle hs hx rfl rfl rfl rfl (fun _ _ h => h) rfl rfl
  | rendering =>
    cases h
    split
    · exact hf.ends hs n
    · refine hf.move hs hx rfl rfl rfl rfl (fun _ _ h => h) (fun _ h => by cases h) fun body hbody part hpart => ?_
      cases hbody
      exact hpart
  | writing x location ordinal rest =>
    have hrest := hf.cut n _ x.body hx rfl
    cases rest with
    | nil =>
      cases h
      split
      · exact hf.ends hs n
      · refine hf.move hs hx rfl rfl rfl rfl (fun _ _ h => h) (fun _ h => h) fun body hbody part hpart => ?_
        cases hpart
    | cons b rest =>
      obtain ⟨hchunk, hleft⟩ := partsOf_mono hrest (List.cons_ne_nil b rest)
      cases h
      split
      · exact hf.ends hs n
      · refine hf.next hs hx (some _) rfl rfl (fun y j g hy => ?_) (fun y body hy => ?_) (fun y body hy hbody part hp => ?_)
          (fun key held hheld => ?_) fun _ _ h => .inl h
        · cases hy
          exact id
        · cases hy
          exact id
        · cases hy
          cases hbody
          rcases List.mem_cons.mp hp with rfl | hp
          · exact hchunk
          · exact hleft part hp
        · obtain ⟨k, hk⟩ : ∃ k, (objectOf cd location (s.db.workspace job) job generation
            ((b :: rest).take chunkBytes)).1 = k := ⟨_, rfl⟩
          have hheld' : Function.update s.store k (some (cd.compress ((b :: rest).take chunkBytes))) key = some held :=
            hk ▸ hheld
          by_cases hkey : key = k
          · subst hkey
            rw [Function.update_self] at hheld'
            refine .inr ⟨?_, (b :: rest).take chunkBytes, ⟨x.body, rfl, hchunk, ?_⟩, (Option.some.inj hheld').symm⟩
            · rw [← hk]
              exact ⟨rfl, rfl⟩
            · rw [← hk]
              rfl
          · rw [Function.update_of_ne hkey] at hheld'
            exact .inl hheld'
  | published x location ordinal chunk rest =>
    have hrest := hf.cut n _ x.body hx rfl
    cases h
    split
    · refine hf.move hs hx rfl rfl rfl rfl (fun _ _ h => h) (fun _ h => h) fun body hbody part hpart => ?_
      cases hbody
      exact hrest part hpart
    · exact hf.ends hs n
  | inserting x location ordinal chunk rest =>
    have hrest := hf.cut n _ x.body hx rfl
    rw [BuildPc.advance] at h
    dsimp only at h
    cases h
    cases hdb : (s.db.registerArchiveObject (objectOf cd location (s.db.workspace job) job generation chunk).1
        (objectOf cd location (s.db.workspace job) job generation chunk).2).bind fun db =>
          db.insertChunk job ordinal (objectOf cd location (s.db.workspace job) job generation chunk).1 with
    | none => exact hf.ends hs n
    | some db =>
      refine hf.next hs hx (some _) rfl rfl (fun y j g hy => ?_) (fun y body hy => ?_)
        (fun y body hy hbody part hp => ?_) (fun _ _ h => .inl h) fun key row hrow => ?_
      · cases hy
        exact id
      · cases hy
        exact id
      · cases hy
        cases hbody
        exact hrest part (List.mem_cons_of_mem _ hp)
      · rcases publication_objects hdb key row hrow with hold | ⟨rfl, rfl⟩
        · exact .inl hold
        · exact .inr ⟨⟨rfl, rfl⟩, chunk, ⟨x.body, rfl, hrest chunk List.mem_cons_self, rfl⟩, rfl⟩
  | sealing x ordinal =>
    rw [BuildPc.advance] at h
    split at h <;> cases h
    cases hdb : s.db.publish job (manifestOf cd x ordinal) with
    | none => exact hf.ends hs n
    | some db =>
      exact hf.next hs hx none rfl rfl (fun _ _ _ h => by cases h) (fun _ _ h => by cases h) (fun _ _ h => by cases h)
        (fun _ _ h => .inl h) fun _ _ h => .inl (publish_objects hdb ▸ h)

/-- A step of the surroundings: objects may go, and jobs may be claimed. -/
theorem Fresh.env (hf : Fresh cd s) (hsessions : t.sessions = s.sessions)
    (hjobs : ∀ job, (s.jobs job).generation ≤ (t.jobs job).generation)
    (hstore : ∀ key held, t.store key = some held → s.store key = some held) (hobjects : t.db.objects = s.db.objects) :
    Fresh cd t := by
  refine ⟨?_, ?_, fun key hkey => ?_, fun m y key held hy hyon hheld => ?_, fun m y key row hy hyon hrow => ?_⟩
  · rw [hsessions]
    exact hf.unique
  · rw [hsessions]
    exact hf.cut
  · refine Nat.le_trans (hf.bounded key ?_) (hjobs key.jobId)
    rcases hkey with hkey | hkey
    · obtain ⟨held, hheld⟩ := Option.isSome_iff_exists.mp hkey
      exact .inl (Option.isSome_iff_exists.mpr ⟨held, hstore key held hheld⟩)
    · exact .inr (hobjects ▸ hkey)
  · exact hf.stored m y key held (hsessions ▸ hy) hyon (hstore key held hheld)
  · exact hf.registered m y key row (hsessions ▸ hy) hyon (hobjects ▸ hrow)

/-- A session enters on a claim that nobody has had. -/
theorem Fresh.enter (hf : Fresh cd s) (hs : Inv cd s) {y : Session} (hbody : y.body = none)
    (hnew : ∀ job generation, y.On job generation → (s.jobs job).generation < generation)
    (hsessions : t.sessions = Function.update s.sessions n (some y))
    (hjobs : ∀ job, (s.jobs job).generation ≤ (t.jobs job).generation) (hstore : t.store = s.store)
    (hobjects : t.db.objects = s.db.objects) : Fresh cd t := by
  have hback : ∀ m z, t.sessions m = some z → m = n ∧ z = y ∨ s.sessions m = some z := by
    intro m z hz
    rw [hsessions] at hz
    by_cases hm : m = n
    · subst hm
      exact .inl ⟨rfl, (Option.some.inj ((Function.update_self m _ _).symm.trans hz)).symm⟩
    · exact .inr ((Function.update_of_ne hm _ _).symm.trans hz)
  have hapart : ∀ m z j g, s.sessions m = some z → z.On j g → ¬ y.On j g := by
    intro m z j g hz hzon hyon
    have := hs.on_le hz hzon
    have := hnew j g hyon
    omega
  refine ⟨fun k m x z j g hx hz hxon hzon => ?_, fun m z body hz hzbody => ?_, fun key hkey => ?_,
    fun m z key held hz hzon hheld => ?_, fun m z key row hz hzon hrow => ?_⟩
  · rcases hback k x hx with ⟨rfl, rfl⟩ | hx
    · rcases hback m z hz with ⟨rfl, _⟩ | hz
      · rfl
      · exact absurd hxon (hapart m z j g hz hzon)
    · rcases hback m z hz with ⟨rfl, rfl⟩ | hz
      · exact absurd hzon (hapart k x j g hx hxon)
      · exact hf.unique k m x z j g hx hz hxon hzon
  · rcases hback m z hz with ⟨rfl, rfl⟩ | hz
    · rw [hbody] at hzbody
      cases hzbody
    · exact hf.cut m z body hz hzbody
  · rw [hstore, hobjects] at hkey
    exact Nat.le_trans (hf.bounded key hkey) (hjobs key.jobId)
  · rw [hstore] at hheld
    rcases hback m z hz with ⟨rfl, rfl⟩ | hz
    · have := hf.bounded key (.inl (Option.isSome_iff_exists.mpr ⟨held, hheld⟩))
      have := hnew _ _ hzon
      omega
    · exact hf.stored m z key held hz hzon hheld
  · rw [hobjects] at hrow
    rcases hback m z hz with ⟨rfl, rfl⟩ | hz
    · have := hf.bounded key (.inr (Option.isSome_iff_exists.mpr ⟨row, hrow⟩))
      have := hnew _ _ hzon
      omega
    · exact hf.registered m z key row hz hzon hrow

theorem fresh_step {e : Event} (hs : Inv cd s) (hf : Fresh cd s) (h : step cd s e = some t) : Fresh cd t := by
  have hle : ∀ job, (s.jobs job).generation ≤ (s.jobs job).generation := fun _ => Nat.le_refl _
  cases e with
  | tick d =>
    cases h
    exact hf.env rfl hle (fun _ _ h => h) rfl
  | reserve job ws st =>
    rw [step] at h
    split at h
    · cases h
    · obtain ⟨db, hdb, rfl⟩ := Option.map_eq_some_iff.mp h
      unfold Db.reserveArtifact at hdb
      split at hdb
      · cases hdb
      · split at hdb <;> cases hdb
        exact hf.env rfl hle (fun _ _ h => h) rfl
  | claim n job =>
    rw [step] at h
    split at h <;> cases h
    refine hf.enter hs rfl (fun j g hon => ?_) rfl (fun j => ?_) rfl rfl
    · obtain ⟨rfl, rfl⟩ := hon
      exact Nat.lt_succ_self _
    · show _ ≤ (Function.update s.jobs job ⟨some n, (s.jobs job).generation + 1⟩ j).generation
      rw [Function.update_apply]
      split
      · next hj =>
        subst hj
        exact Nat.le_succ _
      · exact Nat.le_refl _
  | release job =>
    rw [step] at h
    split at h
    · cases h
    · split at h <;> cases h
      refine hf.env rfl (fun j => ?_) (fun _ _ h => h) rfl
      show _ ≤ (Function.update s.jobs job ⟨none, (s.jobs job).generation⟩ j).generation
      rw [Function.update_apply]
      split
      · next hj =>
        subst hj
        exact Nat.le_refl _
      · exact Nat.le_refl _
  | prune n ws before limit =>
    rw [step] at h
    split at h <;> cases h
    exact hf.enter hs rfl (fun _ _ hon => absurd hon id) rfl hle rfl rfl
  | advance n i =>
    obtain ⟨x, hx, hadvance⟩ := Option.bind_eq_some_iff.mp h
    cases x with
    | build job generation pc => exact hf.build_step hs hx hadvance
    | buildDrop job generation pc =>
      exact Fresh.deletion_step hf hs hx (fun _ _ _ _ h => h) (fun _ _ _ h => h) (fun _ => rfl) rfl hadvance
    | prune ws pc => exact hf.prune_step hs hx hadvance
    | pruneDrop ws job jobs pc =>
      exact Fresh.deletion_step hf hs hx (fun _ _ _ _ h => h) (fun _ _ _ h => h) (fun _ => rfl) rfl hadvance
  | crash n =>
    cases h
    exact hf.ends hs n
  | land n key =>
    rw [step] at h
    split at h <;> cases h
    refine hf.env rfl hle (fun k held hheld => ?_) rfl
    by_cases hk : k = key
    · subst hk
      cases (Function.update_self k none s.store).symm.trans hheld
    · exact (Function.update_of_ne hk _ _).symm.trans hheld
  | acquire job ws lease lifetime slots purged =>
    rw [step] at h
    split at h
    · cases h
    · obtain ⟨db, hdb, rfl⟩ := Option.map_eq_some_iff.mp h
      unfold Db.acquireDownload at hdb
      split at hdb
      · cases hdb
      · dsimp only at hdb
        split at hdb <;> cases hdb
        exact hf.env rfl hle (fun _ _ h => h) rfl
  | giveBack lease ws =>
    cases h
    exact hf.env rfl hle (fun _ _ h => h) rfl

theorem fresh_of_reach (h : Reachable (artifacts cd) s) : Fresh cd s := by
  refine Reach.invariant (fun s h0 => ?_) (fun s e t hr hf _ he => fresh_step (inv_of_reach hr) hf he) h
  obtain ⟨hdb, hstore, _, _, _, hsessions⟩ := h0
  have hnone : ∀ n x, s.sessions n ≠ some x := by
    intro n x hx
    rw [hsessions n] at hx
    cases hx
  refine ⟨fun n m x y j g hx => absurd hx (hnone n x), fun n x body hx => absurd hx (hnone n x), fun key hkey => ?_,
    fun n x key held hx => absurd hx (hnone n x), fun n x key row hx => absurd hx (hnone n x)⟩
  rw [hstore key, hdb] at hkey
  rcases hkey with h | h <;> cases h

end ChessCrawl.Artifacts

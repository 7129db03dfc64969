import DurableQueue.Db
import DurableQueue.Worker.IdleLoop

/-!
# The listening worker

The main loop of `run_worker(use_notify=True)`.  Each enqueue notifies the sessions that listen when
it commits; the loop looks for work and then waits for a notification.  Its session may break at any
time, and a session opened in its place has heard nothing that was sent before.
-/

open Reasoning

namespace DurableQueue

/-- A session that listens: how many of the notifications sent so far are behind it. -/
structure Subscription where
  heard : Nat
  alive : Bool

/-- What has been sent, and the table, at some moment. -/
structure QueueMoment where
  sent : Nat
  jobs : Jobs

/-- A claim that found nothing: when its statement ran, and when its reply had come in. -/
structure EmptyClaim where
  ctx : Ctx
  claimed : QueueMoment
  replied : QueueMoment

inductive ListenPc where
  | test
  | deadLetter
  | recover
  | capacity
  | testAgain (room : Nat)
  | claim (room : Nat)
  | reply (ctx : Ctx) (claimed : QueueMoment) (batch : List (Nat × String × Json))
  | outstanding (e : EmptyClaim)
  | wait (e : EmptyClaim)
  | slots
  | pause
  | done

structure ListeningWorker where
  jobs : Jobs
  sent : Nat
  claimConn : ReconnectingConnection Subscription
  outstanding : Nat
  stop : Bool
  retryDelay : Int
  pc : ListenPc

inductive ListenAct where
  | test
  | skipSweep
  | connect
  | deadLetter (ctx : Ctx) (reapBatch : Nat)
  | recover (ctx : Ctx) (reapBatch : Nat)
  | capacity
  | testAgain
  | claim (ctx : Ctx)
  | reply
  | outstanding
  | woken (heard : Nat)
  | timeout
  | slots
  | error
  | resume
  | drop
  | finished
  | setStop
  | call (c : Call)

namespace ListenPc

/-- Where the loop calls `claim_conn.get()`. -/
def connects : ListenPc → Bool
  | deadLetter | recover | claim _ | wait _ => true
  | _ => false

/-- Where `psycopg.OperationalError` is caught. -/
def guarded : ListenPc → Bool
  | reply .. => true
  | pc => pc.connects

end ListenPc

/-- `pg_notify` runs for each row that the statement returns. -/
def Call.notifies (c : Call) (t : Jobs) : Bool :=
  match c.op with
  | .enqueue .. => true
  | .enqueueMany task argsList keys =>
      (t.enqueueMany task argsList keys c.now).any fun res ↦ decide (res.2 ≠ [])
  | _ => false

namespace ListeningWorker

def moment (s : ListeningWorker) : QueueMoment := ⟨s.sent, s.jobs⟩

/-- The session is up. -/
def Live (s : ListeningWorker) (session : Subscription) : Prop :=
  s.claimConn.current = some session ∧ session.alive = true

end ListeningWorker

section Step

variable (o : WorkerOptions) (backlog : Bool)

/-- Waiting for a statement's reply.  Without a backlog psycopg drops the notifications that come in
with it. -/
def Subscription.afterReply (session : Subscription) (sent : Nat) : Subscription :=
  if backlog then session else { session with heard := sent }

def ListeningWorker.afterReply (s : ListeningWorker) (session : Subscription) :
    ReconnectingConnection Subscription :=
  ⟨some (session.afterReply backlog s.sent, false)⟩

inductive ListenStep : ListeningWorker → ListenAct → ListeningWorker → Prop where
  | stop {s : ListeningWorker} (hpc : s.pc = .test) (hstop : s.stop = true) :
      ListenStep s .test { s with pc := .done }
  | go {s : ListeningWorker} (hpc : s.pc = .test) (hstop : s.stop = false) :
      ListenStep s .test { s with pc := .deadLetter }
  | skipSweep {s : ListeningWorker} (hpc : s.pc = .deadLetter) :
      ListenStep s .skipSweep { s with pc := .capacity }
  -- LISTEN takes effect with its commit, at the end of `set_up_claim_conn`
  | connect {s : ListeningWorker} (hpc : s.pc.connects = true)
      (hnone : s.claimConn.current = none) :
      ListenStep s .connect { s with claimConn := (s.claimConn.get (some ⟨s.sent, true⟩)).1 }
  | deadLetter {s : ListeningWorker} {session : Subscription} {ctx : Ctx} {batch : Nat}
      (hpc : s.pc = .deadLetter) (hlive : s.Live session) :
      ListenStep s (.deadLetter ctx batch)
        { s with
          jobs := (s.jobs.deadLetterExpired ctx batch).1
          claimConn := s.afterReply backlog session
          pc := .recover }
  | recover {s : ListeningWorker} {session : Subscription} {ctx : Ctx} {batch : Nat}
      (hpc : s.pc = .recover) (hlive : s.Live session) :
      ListenStep s (.recover ctx batch)
        { s with
          jobs := (s.jobs.recoverExpired ctx batch).1
          claimConn := s.afterReply backlog session
          pc := .capacity }
  | capacity {s : ListeningWorker} (hpc : s.pc = .capacity)
      (hroom : s.outstanding < o.maxOutstanding ∨ s.stop = true) :
      ListenStep s .capacity { s with pc := .testAgain (o.maxOutstanding - s.outstanding) }
  | stopAgain {s : ListeningWorker} {room : Nat} (hpc : s.pc = .testAgain room)
      (hstop : s.stop = true) : ListenStep s .testAgain { s with pc := .done }
  | goAgain {s : ListeningWorker} {room : Nat} (hpc : s.pc = .testAgain room)
      (hstop : s.stop = false) : ListenStep s .testAgain { s with pc := .claim room }
  | claim {s : ListeningWorker} {session : Subscription} {room : Nat} {ctx : Ctx}
      (hpc : s.pc = .claim room) (hlive : s.Live session) :
      ListenStep s (.claim ctx)
        { s with
          jobs := (s.jobs.claimJobs ctx o.workerId o.leaseSeconds (min room o.claimBatch)).1
          pc := .reply ctx s.moment
            (s.jobs.claimJobs ctx o.workerId o.leaseSeconds (min room o.claimBatch)).2 }
  | claimed {s : ListeningWorker} {session : Subscription} {ctx : Ctx} {m : QueueMoment}
      {batch : List (Nat × String × Json)} (hpc : s.pc = .reply ctx m batch)
      (hlive : s.Live session) (hsome : batch ≠ []) :
      ListenStep s .reply
        { s with
          claimConn := s.afterReply backlog session
          outstanding := s.outstanding + batch.length
          retryDelay := RECONNECT_MIN_DELAY
          pc := .test }
  | claimedNone {s : ListeningWorker} {session : Subscription} {ctx : Ctx} {m : QueueMoment}
      (hpc : s.pc = .reply ctx m []) (hlive : s.Live session) :
      ListenStep s .reply
        { s with
          claimConn := s.afterReply backlog session
          retryDelay := RECONNECT_MIN_DELAY
          pc := .outstanding ⟨ctx, m, s.moment⟩ }
  | nothingOutstanding {s : ListeningWorker} {e : EmptyClaim} (hpc : s.pc = .outstanding e)
      (hnone : s.outstanding = 0) : ListenStep s .outstanding { s with pc := .wait e }
  | someOutstanding {s : ListeningWorker} {e : EmptyClaim} (hpc : s.pc = .outstanding e)
      (hsome : s.outstanding ≠ 0) : ListenStep s .outstanding { s with pc := .slots }
  -- one notification ends the wait, and takes others that came with it along
  | woken {s : ListeningWorker} {session : Subscription} {e : EmptyClaim} {heard : Nat}
      (hpc : s.pc = .wait e) (hlive : s.Live session) (hmore : session.heard < heard)
      (hsent : heard ≤ s.sent) :
      ListenStep s (.woken heard)
        { s with claimConn := ⟨some ({ session with heard := heard }, false)⟩, pc := .test }
  | timeout {s : ListeningWorker} {e : EmptyClaim} (hpc : s.pc = .wait e) :
      ListenStep s .timeout { s with pc := .test }
  | slots {s : ListeningWorker} (hpc : s.pc = .slots) :
      ListenStep s .slots { s with pc := .test }
  | error {s : ListeningWorker} (hpc : s.pc.guarded = true) :
      ListenStep s .error { s with claimConn := s.claimConn.close, pc := .pause }
  | resume {s : ListeningWorker} (hpc : s.pc = .pause) :
      ListenStep s .resume
        { s with retryDelay := min (s.retryDelay * 2) RECONNECT_MAX_DELAY, pc := .test }
  | drop {s : ListeningWorker} {session : Subscription}
      (hconn : s.claimConn.current = some session) :
      ListenStep s .drop { s with claimConn := ⟨some ({ session with alive := false }, false)⟩ }
  | finished {s : ListeningWorker} (hsome : 0 < s.outstanding) :
      ListenStep s .finished { s with outstanding := s.outstanding - 1 }
  | setStop {s : ListeningWorker} : ListenStep s .setStop { s with stop := true }
  | call {s : ListeningWorker} {c : Call} :
      ListenStep s (.call c)
        { s with jobs := c.run s.jobs, sent := s.sent + (c.notifies s.jobs).toNat }

def listeningWorker : System ListeningWorker ListenAct where
  init s := s.sent = 0 ∧ s.outstanding = 0 ∧ s.stop = false ∧
    s.claimConn = ⟨some (⟨0, true⟩, false)⟩ ∧ s.retryDelay = RECONNECT_MIN_DELAY ∧ s.pc = .test
  step := ListenStep o backlog

end Step

/-! ## What is sent of what is enqueued -/

theorem Jobs.enqueueMany_nil {t u : Jobs} {task : String} {argsList : List Json}
    {keys : Option (List (Option String))} {now : Int}
    (h : t.enqueueMany task argsList keys now = some (u, [])) : u = t := by
  rcases Jobs.enqueueMany_cases h with hu | ⟨items, hitems⟩
  · exact hu
  · cases items with
    | nil =>
        cases hitems
        rfl
    | cons item rest =>
        obtain ⟨args, key⟩ := item
        rw [Jobs.enqueueRows] at hitems
        split at hitems
        · cases hitems
        · obtain ⟨_, _, heq⟩ := Option.map_eq_some_iff.mp hitems
          cases heq

-- No row is inserted without a notification.
theorem Call.notifies_of_inserted {c : Call} {t : Jobs} {id : Nat} (hnone : t.row id = none)
    (hsome : ((c.run t).row id).isSome) : c.notifies t = true := by
  have h := c.run_row t id
  rw [hnone] at h
  obtain ⟨r, hr⟩ := Option.isSome_iff_exists.mp hsome
  obtain ⟨ctx, op⟩ := c
  cases op with
  | enqueue => rfl
  | enqueueMany task argsList keys =>
      simp only [Call.run] at hr
      cases he : t.enqueueMany task argsList keys ctx.now with
      | none =>
          rw [he] at hr
          cases hnone.symm.trans hr
      | some res =>
          obtain ⟨u, ids⟩ := res
          rw [he] at hr
          have hne : ids ≠ [] := by
            rintro rfl
            rw [Jobs.enqueueMany_nil he] at hr
            cases hnone.symm.trans hr
          simp only [notifies, he, Option.any_some, decide_eq_true hne]
  | claimJobs | extendLease | extendLeases | deadLetterExpired | recoverExpired | releaseJobs
  | markSucceeded | markFailed | retryJob | deleteCompletedJobs =>
      rw [hr] at h
      cases h with
      | inserted hop => cases hop

namespace QueueMoment

/-- Between the two moments no row came without a notification. -/
structure Since (m m' : QueueMoment) : Prop where
  sent_le : m.sent ≤ m'.sent
  rows : m'.sent = m.sent → ∀ id, (m'.jobs.row id).isSome → (m.jobs.row id).isSome

theorem Since.refl (m : QueueMoment) : m.Since m := ⟨le_rfl, fun _ _ h ↦ h⟩

theorem Since.call {m : QueueMoment} {sent : Nat} {t : Jobs} (h : m.Since ⟨sent, t⟩) (c : Call) :
    m.Since ⟨sent + (c.notifies t).toNat, c.run t⟩ := by
  have hle : m.sent ≤ sent := h.sent_le
  refine ⟨Nat.le_add_right_of_le hle, fun hsent id hsome ↦ ?_⟩
  have hsent : sent + (c.notifies t).toNat = m.sent := hsent
  have hquiet : c.notifies t = false := by
    cases hn : c.notifies t with
    | false => rfl
    | true =>
        rw [hn, Bool.toNat_true] at hsent
        omega
  refine h.rows (show sent = m.sent by omega) id ?_
  cases hrow : t.row id with
  | some r => rfl
  | none => exact absurd (c.notifies_of_inserted hrow hsome) (by rw [hquiet]; decide)

-- A call that enqueues nothing sends nothing.
theorem Since.silent {m : QueueMoment} {sent : Nat} {t : Jobs} (h : m.Since ⟨sent, t⟩) (c : Call)
    (hc : c.notifies t = false) : m.Since ⟨sent, c.run t⟩ := by
  have hcall := h.call c
  rw [hc] at hcall
  exact hcall

end QueueMoment

/-! ## The loop -/

/-- The claim's own batch has room, and still it finds nothing: all that was due was locked. -/
def Ctx.FindsNothing (ctx : Ctx) (t : Jobs) : Prop :=
  ∀ r ∈ t.rows, r.due ctx.now → ctx.locked r.id = true

theorem Jobs.findsNothing {t : Jobs} {ctx : Ctx} {w : WorkerId} {lease : Int} {batch : Nat}
    (hbatch : 0 < batch) (h : (t.claimJobs ctx w lease batch).2 = []) : ctx.FindsNothing t := by
  intro r hr hdue
  by_contra hfree
  have hnil : t.claimable ctx batch = [] :=
    List.map_eq_nil_iff.mp (List.nil_perm.mp (h ▸ t.claimJobs_perm ctx w lease batch))
  -- a candidate makes the selection nonempty
  have hlen : (t.claimable ctx batch).length =
      min batch (t.rows.filter fun x ↦ x.due ctx.now && !ctx.locked x.id).length := by
    rw [claimable, selectForUpdate, selectRows, List.length_take, List.length_insertionSort]
  have hpos : 0 < (t.rows.filter fun x ↦ x.due ctx.now && !ctx.locked x.id).length := by
    refine List.length_pos_of_mem (List.mem_filter.mpr ⟨hr, ?_⟩)
    rw [Bool.and_eq_true, Bool.not_eq_true']
    exact ⟨hdue, Bool.not_eq_true _ ▸ hfree⟩
  rw [hnil, List.length_nil] at hlen
  omega

namespace EmptyClaim

/-- From when on a notification is sure to be waiting. -/
def covered (backlog : Bool) (e : EmptyClaim) : QueueMoment :=
  if backlog then e.claimed else e.replied

/-- What is known of an empty claim by the moment `now`. -/
structure Sound (backlog : Bool) (e : EmptyClaim) (now : QueueMoment) : Prop where
  since : (e.covered backlog).Since now
  nothing : e.ctx.FindsNothing e.claimed.jobs

end EmptyClaim

/-- Of the session that `claim_conn` has, no notification sent after the first `n` is behind it. -/
def ListeningWorker.Awaits (s : ListeningWorker) (n : Nat) : Prop :=
  ∃ session, s.claimConn.current = some session ∧ session.heard ≤ n

/-- What the loop knows at each point. -/
def ListeningWorker.Informed (backlog : Bool) (s : ListeningWorker) : Prop :=
  match s.pc with
  | .testAgain room => 0 < room ∨ s.stop = true
  | .claim room => 0 < room
  | .reply ctx m batch =>
      m.Since s.moment ∧ s.Awaits m.sent ∧ (batch = [] → ctx.FindsNothing m.jobs)
  | .outstanding e | .wait e =>
      e.Sound backlog s.moment ∧ s.Awaits (e.covered backlog).sent
  | _ => True

structure ListeningWorker.Inv (backlog : Bool) (s : ListeningWorker) : Prop where
  heard_le : ∀ session, s.claimConn.current = some session → session.heard ≤ s.sent
  min_le : RECONNECT_MIN_DELAY ≤ s.retryDelay
  le_max : s.retryDelay ≤ RECONNECT_MAX_DELAY
  informed : s.Informed backlog

namespace ListeningWorker

variable {o : WorkerOptions} {backlog : Bool} {s t : ListeningWorker} {a : ListenAct}

-- What others do leaves the loop informed.
theorem Informed.mono (h : s.Informed backlog) (hpc : t.pc = s.pc)
    (hstop : s.stop = true → t.stop = true)
    (hsince : ∀ m : QueueMoment, m.Since s.moment → m.Since t.moment)
    (hconn : ∀ n, s.Awaits n → t.Awaits n) : t.Informed backlog := by
  unfold Informed at h ⊢
  rw [hpc]
  cases hs : s.pc with
  | test | deadLetter | recover | capacity | slots | pause | done => trivial
  | testAgain room =>
      rw [hs] at h
      exact h.imp_right hstop
  | claim room =>
      rw [hs] at h
      exact h
  | reply ctx m batch =>
      rw [hs] at h
      exact ⟨hsince m h.1, hconn _ h.2.1, h.2.2⟩
  | outstanding e | wait e =>
      rw [hs] at h
      exact ⟨⟨hsince _ h.1.since, h.1.nothing⟩, hconn _ h.2⟩

theorem heard_afterReply {session : Subscription} (hle : session.heard ≤ s.sent) :
    ∀ x, (s.afterReply backlog session).current = some x → x.heard ≤ s.sent := by
  intro x hx
  obtain rfl := Option.some.inj hx
  unfold Subscription.afterReply
  split
  · exact hle
  · exact le_rfl

theorem Inv.step (hslots : 0 < o.concurrency) (h : s.Inv backlog)
    (ha : ListenStep o backlog s a t) : t.Inv backlog := by
  obtain ⟨hheard, hmin, hmax, hinf⟩ := h
  cases ha with
  | stop hpc hstop => exact ⟨hheard, hmin, hmax, trivial⟩
  | go hpc hstop => exact ⟨hheard, hmin, hmax, trivial⟩
  | skipSweep hpc => exact ⟨hheard, hmin, hmax, trivial⟩
  | connect hpc hnone =>
      have hnew : s.claimConn.get (some ⟨s.sent, true⟩) =
          (⟨some (⟨s.sent, true⟩, false)⟩, some ⟨s.sent, true⟩) := by
        unfold ReconnectingConnection.get
        rw [hnone]
      rw [hnew]
      refine ⟨fun x hx ↦ Option.some.inj hx ▸ le_rfl, hmin, hmax, ?_⟩
      unfold Informed at hinf ⊢
      cases hs : s.pc with
      | deadLetter | recover => trivial
      | claim room =>
          rw [hs] at hinf
          exact hinf
      | wait e =>
          -- the session that the claim was sent on is still the one in use
          rw [hs] at hinf
          obtain ⟨-, session, hcurrent, -⟩ := hinf
          cases hnone.symm.trans hcurrent
      | test | capacity | testAgain | reply | outstanding | slots | pause | done =>
          rw [hs] at hpc
          cases hpc
  | @deadLetter session ctx batch hpc hlive =>
      exact ⟨heard_afterReply (hheard _ hlive.1), hmin, hmax, trivial⟩
  | @recover session ctx batch hpc hlive =>
      exact ⟨heard_afterReply (hheard _ hlive.1), hmin, hmax, trivial⟩
  | capacity hpc hroom =>
      refine ⟨hheard, hmin, hmax, hroom.imp_left fun hlt ↦ ?_⟩
      exact Nat.sub_pos_of_lt hlt
  | stopAgain hpc hstop => exact ⟨hheard, hmin, hmax, trivial⟩
  | @goAgain room hpc hstop =>
      unfold Informed at hinf
      rw [hpc] at hinf
      refine ⟨hheard, hmin, hmax, hinf.resolve_right ?_⟩
      rw [hstop]
      exact Bool.false_ne_true
  | @claim session room ctx hpc hlive =>
      unfold Informed at hinf
      rw [hpc] at hinf
      have hroom : 0 < room := hinf
      have hbatch : 0 < min room o.claimBatch :=
        Nat.lt_min.mpr ⟨hroom, Nat.lt_of_lt_of_le hslots (Nat.le_max_right _ _)⟩
      refine ⟨hheard, hmin, hmax, ?_, ⟨session, hlive.1, hheard _ hlive.1⟩,
        Jobs.findsNothing hbatch⟩
      exact (QueueMoment.Since.refl s.moment).silent
        ⟨ctx, .claimJobs o.workerId o.leaseSeconds (min room o.claimBatch)⟩ rfl
  | @claimed session ctx m batch hpc hlive hsome =>
      exact ⟨heard_afterReply (hheard _ hlive.1), le_rfl, minDelay_le_maxDelay, trivial⟩
  | @claimedNone session ctx m hpc hlive =>
      unfold Informed at hinf
      rw [hpc] at hinf
      obtain ⟨hsince, ⟨x, hx, hle⟩, hnothing⟩ := hinf
      obtain rfl := Option.some.inj (hlive.1.symm.trans hx)
      have hheard' : ∀ x, (s.afterReply backlog session).current = some x → x.heard ≤ s.sent :=
        heard_afterReply (hheard _ hlive.1)
      refine ⟨hheard', le_rfl, minDelay_le_maxDelay, ⟨?_, hnothing rfl⟩, _, rfl, ?_⟩
      · unfold EmptyClaim.covered
        split
        · exact hsince
        · exact .refl _
      · unfold EmptyClaim.covered Subscription.afterReply
        split
        · exact hle
        · exact le_rfl
  | @nothingOutstanding e hpc hnone =>
      unfold Informed at hinf
      rw [hpc] at hinf
      exact ⟨hheard, hmin, hmax, hinf⟩
  | someOutstanding hpc hsome => exact ⟨hheard, hmin, hmax, trivial⟩
  | @woken session e heard hpc hlive hmore hsent =>
      exact ⟨fun x hx ↦ Option.some.inj hx ▸ hsent, hmin, hmax, trivial⟩
  | timeout hpc => exact ⟨hheard, hmin, hmax, trivial⟩
  | slots hpc => exact ⟨hheard, hmin, hmax, trivial⟩
  | error hpc => exact ⟨nofun, hmin, hmax, trivial⟩
  | resume hpc =>
      have hpos : 0 ≤ s.retryDelay := le_trans (by decide) hmin
      refine ⟨hheard, le_min (hmin.trans ?_) minDelay_le_maxDelay, min_le_right _ _, trivial⟩
      omega
  | @drop session hconn =>
      refine ⟨fun x hx ↦ Option.some.inj hx ▸ hheard session hconn, hmin, hmax, ?_⟩
      refine hinf.mono rfl id (fun _ h ↦ h) fun n ⟨x, hx, hle⟩ ↦ ⟨_, rfl, ?_⟩
      obtain rfl := Option.some.inj (hconn.symm.trans hx)
      exact hle
  | finished hsome => exact ⟨hheard, hmin, hmax, hinf⟩
  | setStop => exact ⟨hheard, hmin, hmax, hinf.mono rfl (fun _ ↦ rfl) (fun _ h ↦ h) fun _ h ↦ h⟩
  | @call c =>
      refine ⟨fun x hx ↦ Nat.le_add_right_of_le (hheard x hx), hmin, hmax, ?_⟩
      exact hinf.mono rfl id (fun _ h ↦ h.call c) fun _ h ↦ h

/-- The loop is in `wait_for_job`, on a session that is up, and nothing wakes it. -/
def Blocked (s : ListeningWorker) (e : EmptyClaim) : Prop :=
  s.pc = .wait e ∧ ∃ session, s.Live session ∧ session.heard = s.sent

end ListeningWorker

theorem listeningWorker_inv {o : WorkerOptions} {backlog : Bool} {s : ListeningWorker}
    (hslots : 0 < o.concurrency) (h : (listeningWorker o backlog).Reachable s) :
    s.Inv backlog := by
  apply h.invariant
  · rintro s ⟨hsent, -, -, hconn, hdelay, hpc⟩
    refine ⟨fun x hx ↦ ?_, hdelay.ge, hdelay.le.trans minDelay_le_maxDelay, ?_⟩
    · rw [hconn] at hx
      exact Option.some.inj hx ▸ Nat.zero_le _
    · unfold ListeningWorker.Informed
      rw [hpc]
      trivial
  · intro s a t hs ha
    exact hs.step hslots ha

/-- What a worker that waits for a notification can have slept through, whichever sessions it has
lost on the way.  With a psycopg that keeps a backlog it is nothing: all that was sent, and all that
is in the table, was there when it claimed.  Without a backlog it was there when the claim's reply
had come in.  What the claim itself found due was locked. -/
theorem listening_worker_misses_nothing {o : WorkerOptions} {backlog : Bool} {s : ListeningWorker}
    {e : EmptyClaim} (hslots : 0 < o.concurrency) (h : (listeningWorker o backlog).Reachable s)
    (hblocked : s.Blocked e) :
    (backlog = true → s.sent = e.claimed.sent ∧
        ∀ id, (s.jobs.row id).isSome → (e.claimed.jobs.row id).isSome) ∧
      (backlog = false → s.sent = e.replied.sent ∧
        ∀ id, (s.jobs.row id).isSome → (e.replied.jobs.row id).isSome) ∧
      (∀ r ∈ e.claimed.jobs.rows, r.due e.ctx.now → e.ctx.locked r.id = true) ∧
      RECONNECT_MIN_DELAY ≤ s.retryDelay ∧ s.retryDelay ≤ RECONNECT_MAX_DELAY := by
  have hinv := listeningWorker_inv hslots h
  obtain ⟨hpc, session, ⟨hcurrent, -⟩, hheard⟩ := hblocked
  have hinf := hinv.informed
  unfold ListeningWorker.Informed at hinf
  rw [hpc] at hinf
  obtain ⟨⟨hsince, hnothing⟩, x, hx, hle⟩ := hinf
  obtain rfl := Option.some.inj (hcurrent.symm.trans hx)
  have hsent : s.sent = (e.covered backlog).sent :=
    Nat.le_antisymm (hheard ▸ hle) hsince.sent_le
  have hrows := hsince.rows hsent
  refine ⟨?_, ?_, hnothing, hinv.min_le, hinv.le_max⟩
  · rintro rfl
    exact ⟨hsent, hrows⟩
  · rintro rfl
    exact ⟨hsent, hrows⟩

def listeningStart : ListeningWorker :=
  ⟨.empty, 0, ⟨some (⟨0, true⟩, false)⟩, 0, false, RECONNECT_MIN_DELAY, .test⟩

/-- The session breaks, a notification is lost, and the next claim finds the job locked. -/
def waitingAfterBreak : List ListenAct :=
  [.test, .drop, .call ⟨.alone 0, .enqueue "t" "" none⟩, .error, .resume, .test, .connect,
    .skipSweep, .capacity, .testAgain, .claim ⟨0, fun _ ↦ true, id⟩, .reply, .outstanding]

/-- A job comes in after the claim, and its notification with the claim's reply. -/
def waitingAfterReply : List ListenAct :=
  [.test, .skipSweep, .capacity, .testAgain, .claim (.alone 0),
    .call ⟨.alone 0, .enqueue "t" "" none⟩, .reply, .outstanding]

-- With a backlog, and without one.
theorem listening_worker_misses_nothing_sessions :
    (∃ (s : ListeningWorker) (e : EmptyClaim),
      (listeningWorker ⟨"w", 30, 10, 1⟩ true).Reachable s ∧ s.Blocked e ∧
        (s.jobs.row 1).isSome ∧ (e.claimed.jobs.row 1).isSome ∧ e.ctx.locked 1 = true) ∧
    ∃ (s : ListeningWorker) (e : EmptyClaim),
      (listeningWorker ⟨"w", 30, 10, 1⟩ false).Reachable s ∧ s.Blocked e ∧
        (s.jobs.row 1).isSome ∧ (e.replied.jobs.row 1).isSome ∧ e.claimed.jobs.row 1 = none := by
  let jobs := Call.run ⟨.alone 0, .enqueue "t" "" none⟩ .empty
  constructor
  · let e : EmptyClaim := ⟨⟨0, fun _ ↦ true, id⟩, ⟨1, jobs⟩, ⟨1, jobs⟩⟩
    let s : ListeningWorker :=
      ⟨jobs, 1, ⟨some (⟨1, true⟩, false)⟩, 0, false, RECONNECT_MIN_DELAY, .wait e⟩
    have hrun : (listeningWorker ⟨"w", 30, 10, 1⟩ true).Run listeningStart waitingAfterBreak s :=
      .cons (.go rfl rfl) <| .cons (.drop rfl) <| .cons .call <| .cons (.error rfl) <|
        .cons (.resume rfl) <| .cons (.go rfl rfl) <| .cons (.connect rfl rfl) <|
        .cons (.skipSweep rfl) <| .cons (.capacity rfl (Or.inl (by decide))) <|
        .cons (.goAgain rfl rfl) <| .cons (.claim rfl ⟨rfl, rfl⟩) <|
        .cons (.claimedNone rfl ⟨rfl, rfl⟩) <| .cons (.nothingOutstanding rfl rfl) <| .nil _
    have hreach := hrun.reachable (.init ⟨rfl, rfl, rfl, rfl, rfl, rfl⟩)
    have hblocked : s.Blocked e := ⟨rfl, ⟨1, true⟩, ⟨rfl, rfl⟩, rfl⟩
    obtain ⟨hkept, -, hlocked, -⟩ :=
      listening_worker_misses_nothing (by decide) hreach hblocked
    refine ⟨s, e, hreach, hblocked, rfl, (hkept rfl).2 1 rfl, ?_⟩
    exact hlocked _ (List.mem_singleton_self _) rfl
  · let e : EmptyClaim := ⟨.alone 0, ⟨0, .empty⟩, ⟨1, jobs⟩⟩
    let s : ListeningWorker :=
      ⟨jobs, 1, ⟨some (⟨1, true⟩, false)⟩, 0, false, RECONNECT_MIN_DELAY, .wait e⟩
    have hrun : (listeningWorker ⟨"w", 30, 10, 1⟩ false).Run listeningStart waitingAfterReply s :=
      .cons (.go rfl rfl) <| .cons (.skipSweep rfl) <|
        .cons (.capacity rfl (Or.inl (by decide))) <| .cons (.goAgain rfl rfl) <|
        .cons (.claim rfl ⟨rfl, rfl⟩) <| .cons .call <| .cons (.claimedNone rfl ⟨rfl, rfl⟩) <|
        .cons (.nothingOutstanding rfl rfl) <| .nil _
    have hreach := hrun.reachable (.init ⟨rfl, rfl, rfl, rfl, rfl, rfl⟩)
    have hblocked : s.Blocked e := ⟨rfl, ⟨1, true⟩, ⟨rfl, rfl⟩, rfl⟩
    obtain ⟨-, hdropped, -⟩ := listening_worker_misses_nothing (by decide) hreach hblocked
    exact ⟨s, e, hreach, hblocked, rfl, (hdropped rfl).2 1 rfl, rfl⟩

end DurableQueue

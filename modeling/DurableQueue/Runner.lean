import DurableQueue.Worker.Connections

/-!
# The runner

`Runner._keep_running` around `run_worker`: a call that is left is followed by another one until the
runner is told to stop.  What an abandoned call has started goes on beside its successors.
-/

open Reasoning

namespace DurableQueue

/-- The table, the clock and the `stop` event, which all calls share, and the calls so far. -/
structure Runner where
  jobs : Jobs
  time : Int
  stop : Bool
  calls : List WorkerCall

inductive RunnerAct where
  | startup
  | launch (workerId : WorkerId)
  | call (k : Nat) (a : CallAct)
  | stop
  | statement (c : Call)
  | tick (time : Int)

/-- Anything but an `OperationalError` comes out of `run_worker`, whose heartbeat has been
started. -/
def RunnerAct.escapes : RunnerAct → Bool
  | call _ .raise => true
  | _ => false

namespace Runner

def start (jobs : Jobs) : Runner := ⟨jobs, 0, false, []⟩

/-- A call with the table, the time and the event as they are. -/
def view (s : Runner) (c : WorkerCall) : WorkerCall :=
  { c with process := { c.process with jobs := s.jobs, time := s.time, stop := s.stop } }

def takers (s : Runner) : Int := total WorkerCall.takers s.calls

/-- The heartbeats that run. -/
def heartbeats (s : Runner) : Nat := s.calls.countP (!·.process.stopped)

def connections (s : Runner) : Nat := (s.calls.map WorkerCall.connections).sum

end Runner

inductive RunnerStep (o : ProcessOptions) : Runner → RunnerAct → Runner → Prop where
  -- `claim_conn.get()` raises, and nothing has been started
  | startup {s : Runner} (hleft : ∀ c ∈ s.calls, c.left = true) (hstop : s.stop = false) :
      RunnerStep o s .startup s
  | launch {s : Runner} {workerId : WorkerId} (hleft : ∀ c ∈ s.calls, c.left = true)
      (hstop : s.stop = false) :
      RunnerStep o s (.launch workerId)
        { s with calls := s.calls ++ [.start o workerId s.jobs] }
  | call {s : Runner} {k : Nat} {a : CallAct} {c d : WorkerCall} (hcall : s.calls[k]? = some c)
      (ha : CallStep o (s.view c) a d) :
      RunnerStep o s (.call k a)
        ⟨d.process.jobs, d.process.time, d.process.stop, s.calls.set k d⟩
  | stop {s : Runner} : RunnerStep o s .stop { s with stop := true }
  | statement {s : Runner} {c : Call} :
      RunnerStep o s (.statement c) { s with jobs := c.run s.jobs }
  | tick {s : Runner} {time : Int} (htime : s.time ≤ time) :
      RunnerStep o s (.tick time) { s with time := time }

def runner (o : ProcessOptions) : System Runner RunnerAct where
  init s := ∃ jobs, s = .start jobs
  step := RunnerStep o

namespace Runner

/-- Every call that has been left has released what it had started, and what runs keeps to the
budget of one worker, with the connections that slots have not given back. -/
structure Contained (o : ProcessOptions) (s : Runner) : Prop where
  released : ∀ c ∈ s.calls, c.left = true → c.Released
  takers : s.takers ≤ o.concurrency
  heartbeats : s.heartbeats ≤ 1
  connections : s.connections ≤ o.concurrency + 2
  silent : ∀ k c, s.calls[k]? = some c → c.left = true → ∀ ctx done t,
    ¬ RunnerStep o s (.call k (.process (.beat ctx done))) t

variable {o : ProcessOptions} {s t : Runner} {a : RunnerAct}

/-! ## As long as nothing escapes -/

/-- There is one call at most. -/
def Sound (o : ProcessOptions) (s : Runner) : Prop :=
  s.calls = [] ∨ ∃ c, s.calls = [c] ∧ (s.view c).Sound o

theorem Sound.shared (h : s.Sound o) (jobs : Jobs) (time : Int) {stop : Bool}
    (hstop : s.stop = true → stop = true) : Sound o ⟨jobs, time, stop, s.calls⟩ := by
  rcases h with hnone | ⟨c, hcalls, hc⟩
  · exact Or.inl hnone
  · exact Or.inr ⟨c, hcalls, hc.shared jobs time hstop⟩

-- After a call that has been left the runner has been told to stop.
theorem Sound.launch (h : s.Sound o) (hleft : ∀ c ∈ s.calls, c.left = true)
    (hstop : s.stop = false) (workerId : WorkerId) :
    Sound o { s with calls := s.calls ++ [.start o workerId s.jobs] } := by
  rcases h with hnone | ⟨c, hcalls, hc⟩
  · refine Or.inr ⟨.start o workerId s.jobs, ?_, ?_⟩
    · rw [hnone]
      rfl
    · exact (WorkerCall.sound_start o workerId s.jobs).shared s.jobs s.time nofun
  · have hmem : c ∈ s.calls := by
      rw [hcalls]
      exact List.mem_cons_self
    have hstopped := (hc.left (hleft c hmem)).1
    have hset := hc.stopping (by rw [(hc.stopped hstopped).1]; rfl)
    cases hstop.symm.trans hset

theorem Sound.step (h : s.Sound o) (ha : RunnerStep o s a t) (hescapes : a.escapes = false) :
    t.Sound o := by
  cases ha with
  | startup => exact h
  | launch hleft hstop => exact h.launch hleft hstop _
  | @call k a c d hcall ha =>
      rcases h with hnone | ⟨c', hcalls, hc⟩
      · rw [hnone] at hcall
        cases hcall
      · rw [hcalls] at hcall
        cases k with
        | succ k => cases hcall
        | zero =>
            obtain rfl := Option.some.inj hcall
            refine Or.inr ⟨d, ?_, hc.step ha ?_⟩
            · rw [hcalls]
              rfl
            · rintro rfl
              cases hescapes
  | stop => exact h.shared _ _ fun _ ↦ rfl
  | statement => exact h.shared _ _ id
  | tick => exact h.shared _ _ id

theorem sound_of_run {as : List RunnerAct} {jobs : Jobs}
    (h : (runner o).Run (start jobs) as s) (hescapes : ∀ a ∈ as, a.escapes = false) :
    s.Sound o := by
  have hrun {s t : Runner} {as : List RunnerAct} (h : (runner o).Run s as t)
      (hescapes : ∀ a ∈ as, a.escapes = false) (hs : s.Sound o) : t.Sound o := by
    induction h with
    | nil => exact hs
    | cons ha _ ih =>
        have hhead := hescapes _ List.mem_cons_self
        exact ih (fun a ha ↦ hescapes a (List.mem_cons_of_mem _ ha)) (hs.step ha hhead)
  exact hrun h hescapes (Or.inl rfl)

-- A heartbeat that has been stopped has nothing to send.
theorem no_beat {k : Nat} {c : WorkerCall} {ctx : Ctx} {done : Bool} (hcall : s.calls[k]? = some c)
    (hreleased : c.Released) : ¬ RunnerStep o s (.call k (.process (.beat ctx done))) t := by
  intro ha
  cases ha with
  | call hcall' ha =>
      obtain rfl := Option.some.inj (hcall.symm.trans hcall')
      cases ha with
      | process ha =>
          cases ha with
          | beat hbeat => cases hbeat.symm.trans hreleased.heartbeat.2

theorem Sound.contained (h : s.Sound o) : s.Contained o := by
  have hreleased : ∀ c ∈ s.calls, c.left = true → c.Released := by
    intro c hmem hleft
    rcases h with hnone | ⟨c', hcalls, hc⟩
    · rw [hnone] at hmem
      cases hmem
    · rw [hcalls] at hmem
      obtain rfl := List.mem_singleton.mp hmem
      have hview := hc.released hleft
      exact ⟨hview.heartbeat, hview.slots, hview.connections, hview.pool⟩
  refine ⟨hreleased, ?_, ?_, ?_,
    fun k c hcall hleft ctx done t ↦ no_beat hcall (hreleased c (List.mem_of_getElem? hcall) hleft)⟩
  · unfold takers
    rcases h with hnone | ⟨c, hcalls, hc⟩
    · rw [hnone]
      exact Int.natCast_nonneg _
    · rw [hcalls, total_cons, total_nil]
      exact (Int.add_zero _).trans_le hc.takers_le
  · unfold heartbeats
    rcases h with hnone | ⟨c, hcalls, hc⟩
    · rw [hnone]
      exact Nat.zero_le _
    · rw [hcalls]
      exact List.countP_le_length
  · unfold connections
    rcases h with hnone | ⟨c, hcalls, hc⟩
    · rw [hnone]
      exact Nat.zero_le _
    · rw [hcalls]
      exact (Nat.add_zero _).trans_le hc.connections_le

/-! ## After something has escaped -/

-- An abandoned call stays where it is.
theorem crashed_step {k : Nat} {c : WorkerCall} (ha : RunnerStep o s a t)
    (hcall : s.calls[k]? = some c) (hc : c.Crashed) :
    ∃ d, t.calls[k]? = some d ∧ d.Crashed := by
  cases ha with
  | launch =>
      refine ⟨c, ?_, hc⟩
      rw [List.getElem?_append_left (List.getElem?_eq_some_iff.mp hcall).1]
      exact hcall
  | @call k' b c' d hcall' ha =>
      by_cases hk : k' = k
      · subst hk
        obtain rfl := Option.some.inj (hcall.symm.trans hcall')
        exact ⟨d, List.getElem?_set_self (List.getElem?_eq_some_iff.mp hcall).1,
          WorkerCall.Crashed.step (c := s.view c) hc ha⟩
      · exact ⟨c, (List.getElem?_set_ne hk).trans hcall, hc⟩
  | startup | stop | statement | tick => exact ⟨c, hcall, hc⟩

theorem crashed_run {k : Nat} {c : WorkerCall} {as : List RunnerAct} (h : (runner o).Run s as t)
    (hcall : s.calls[k]? = some c) (hc : c.Crashed) :
    ∃ d, t.calls[k]? = some d ∧ d.Crashed := by
  induction h generalizing c with
  | nil => exact ⟨c, hcall, hc⟩
  | cons ha _ ih =>
      obtain ⟨d, hd, hcrashed⟩ := crashed_step ha hcall hc
      exact ih hd hcrashed

theorem crashed_of_escapes (ha : RunnerStep o s a t) (hescapes : a.escapes = true) :
    ∃ (k : Nat) (d : WorkerCall), t.calls[k]? = some d ∧ d.Crashed := by
  cases ha with
  | @call k b c d hcall ha =>
      refine ⟨k, d, List.getElem?_set_self (List.getElem?_eq_some_iff.mp hcall).1, ?_⟩
      cases ha with
      | raise hleft hstopped => exact ⟨rfl, hstopped, _, rfl⟩
      | _ => cases hescapes
  | _ => cases hescapes

/-- Each call that is left has released what it had started, with at most `concurrency` slots that
may take a job, one heartbeat and `concurrency + 2` connections in all, exactly if no exception has
escaped from a call whose heartbeat had been started. -/
theorem contained_iff {jobs : Jobs} {as : List RunnerAct}
    (h : (runner o).Run (start jobs) as s) :
    s.Contained o ↔ ∀ a ∈ as, a.escapes = false := by
  constructor
  · intro hcontained a ha
    refine Bool.eq_false_iff.mpr fun hescapes ↦ ?_
    obtain ⟨before, after, rfl⟩ := List.append_of_mem ha
    obtain ⟨u, -, hrest⟩ := System.Run.append_iff.mp h
    obtain ⟨v, hstep, hafter⟩ := System.Run.cons_iff.mp hrest
    obtain ⟨k, d, hd, hcrashed⟩ := crashed_of_escapes hstep hescapes
    obtain ⟨e, he, hlast⟩ := crashed_run hafter hd hcrashed
    exact hlast.not_released
      (hcontained.released e (List.mem_of_getElem? he) hlast.1)
  · intro hescapes
    exact (sound_of_run h hescapes).contained

/-! ## A runner with one call -/

/-- A call by itself. -/
def workerCall (o : ProcessOptions) : System WorkerCall CallAct where
  init c := ∃ workerId jobs, c = .start o workerId jobs
  step := CallStep o

def lone (c : WorkerCall) : Runner := ⟨c.process.jobs, c.process.time, c.process.stop, [c]⟩

-- What the call does is done in the runner.
theorem lone_run {c d : WorkerCall} {as : List CallAct} (h : (workerCall o).Run c as d) :
    (runner o).Run (lone c) (as.map (.call 0)) (lone d) := by
  induction h with
  | nil => exact .nil _
  | cons ha _ ih => exact .cons (.call rfl ha) ih

theorem launched (jobs : Jobs) : (runner single).Run (start jobs) [.startup, .launch "w"]
    (lone (.start single "w" jobs)) := by
  have hnone : ∀ c ∈ (start jobs).calls, c.left = true := fun _ hc ↦ absurd hc List.not_mem_nil
  exact .cons (.startup hnone rfl) <| .cons (.launch hnone rfl) <| .nil _

def onePending : Jobs := Call.run ⟨.alone 0, .enqueue "t" "" none⟩ .empty

/-- The worker runs the one job there is, with a round of its heartbeat meanwhile, and is told to
stop. -/
def stopAfterOne : List CallAct :=
  [.process .main, .process .main, .process .main, .process .main,
    .process (.claim (.alone 0) true), .process .hold, .process .openPool, .process .count,
    .process .put, .process .put, .process (.take 0), .process (.enter 0), .process (.start 0),
    .process .look, .connectHeartbeat, .process (.beat (.alone 0) true), .poolConnect, .borrow 0,
    .process (.complete 0 (.alone 0) true), .giveBack 0, .process (.release 0),
    .process (.finish 0), .process (.loop 0), .process .setStop, .process .main, .process .main,
    .process .letGo, .process (.handBack false), .process .sentinels, .process (.take 0),
    .process (.leave 0), .process .main, .process .stopBeat, .leave]

theorem stopAfterOne_run : ∃ c,
    (workerCall single).Run (.start single "w" onePending) stopAfterOne c ∧
      (c.process.jobs.row 1).map Job.status = some .succeeded := by
  let job : ClaimedJob := ⟨1, "t", ""⟩
  exact ⟨_, .cons (.process (.main (.go rfl)) trivial) <|
    .cons (.process (.main .skipSweep) trivial) <|
    .cons (.process (.main (.capacity (Or.inl (by decide)))) trivial) <|
    .cons (.process (.main (.goAgain rfl)) trivial) <|
    .cons (.process (.claimed rfl rfl) rfl) <|
    .cons (.process (@ProcessStep.hold _ _ [job] rfl) trivial) <|
    .cons (.process (@ProcessStep.openPool _ _ [job] rfl) trivial) <|
    .cons (.process (@ProcessStep.count _ _ [job] rfl) trivial) <|
    .cons (.process (@ProcessStep.put _ _ job [] rfl) trivial) <|
    .cons (.process (.putAll rfl) trivial) <|
    .cons (.process (@ProcessStep.take _ _ 0 job [] rfl rfl) trivial) <|
    .cons (.process (@ProcessStep.enter _ _ 0 job rfl) trivial) <|
    .cons (.process (@ProcessStep.start _ _ 0 job (some 0) (seconds 300) rfl rfl) trivial) <|
    .cons (.process (.look rfl rfl) trivial) <|
    .cons (.connectHeartbeat nofun) <|
    .cons (.process (@ProcessStep.beat _ _ (.alone 0) true [1] 0 rfl) rfl) <|
    .cons (@CallStep.poolConnect _ _ 0 rfl (by decide)) <|
    .cons (@CallStep.borrow _ _ 0 0 job (.executing (seconds 300)) rfl rfl rfl (by decide)
      List.not_mem_nil) <|
    .cons (.process (@ProcessStep.complete _ _ 0 job (some 0) (seconds 300) (.alone 0) true rfl)
      (List.mem_singleton_self 0)) <|
    .cons (@CallStep.giveBack _ _ 0 0 (List.mem_singleton_self _)) <|
    .cons (.process (@ProcessStep.release _ _ 0 job (some 0) (some (seconds 300)) .returned rfl)
      List.not_mem_nil) <|
    .cons (.process (@ProcessStep.finish _ _ 0 job (some 0) .returned rfl) trivial) <|
    .cons (.process (@ProcessStep.loop _ _ 0 .returned rfl) trivial) <|
    .cons (.process .setStop trivial) <|
    .cons (.process (.main (.stop rfl)) trivial) <|
    .cons (.process (.main (.drained rfl)) trivial) <|
    .cons (.process (.letGo rfl) trivial) <|
    .cons (.process (@ProcessStep.handBack _ _ _ false (.alone 0) rfl) trivial) <|
    .cons (.process (.sentinels rfl) trivial) <|
    .cons (.process (@ProcessStep.sentinel _ _ 0 [] rfl rfl) trivial) <|
    .cons (.process (@ProcessStep.leave _ _ 0 rfl) trivial) <|
    .cons (.process (.main .joined) trivial) <|
    .cons (.process (.stopBeat rfl rfl) trivial) <|
    .cons (.leave rfl rfl rfl) <| .nil _, rfl⟩

/-- The database cannot be reached at first, and then the worker works until it is stopped. -/
theorem contained_stopped : ∃ s : Runner, (runner single).Run (start onePending)
      ([.startup, .launch "w"] ++ stopAfterOne.map (.call 0)) s ∧
      (s.jobs.row 1).map Job.status = some .succeeded ∧ s.Contained single := by
  obtain ⟨c, hcall, hjob⟩ := stopAfterOne_run
  have hrun := (launched onePending).trans (lone_run hcall)
  exact ⟨_, hrun, hjob, (contained_iff hrun).mpr (by decide)⟩

/-- A call with its claim connection open and no other one. -/
def loneCall (p : Process) : WorkerCall := ⟨"w", p, true, false, 0, [], false⟩

-- What the process does is done in the call.
theorem process_run {p q : Process} {as : List ProcessAct} (h : (process single).Run p as q)
    (hconn : ∀ a ∈ as, (loneCall p).connected a) :
    (workerCall single).Run (loneCall p) (as.map .process) (loneCall q) := by
  induction h with
  | nil => exact .nil _
  | @cons p q r a as ha _ ih =>
      have hrest (b : ProcessAct) (hb : b ∈ as) : (loneCall q).connected b :=
        hconn b (List.mem_cons_of_mem _ hb)
      have hstep : CallStep single (loneCall p) (.process a)
          { loneCall p with process := q, spare := if q.poolOpen then 0 else 0 } :=
        .process ha (hconn a List.mem_cons_self)
      rw [ite_self] at hstep
      exact .cons hstep (ih hrest)

/-- With two jobs claimed, `reap_expired_jobs` raises something that is no `OperationalError`.  The
runner starts another worker, and the first one's slot and heartbeat go on. -/
theorem crashed_call_beats : ∃ s t : Runner, (runner single).Reachable s ∧
    s.heartbeats = 2 ∧ s.takers = 2 ∧ (∃ c, s.calls[0]? = some c ∧ c.left = true) ∧
    RunnerStep single s (.call 0 (.process (.beat (.alone (seconds 10)) true))) t ∧
    (s.jobs.row 1).bind Job.lockedUntil = some (seconds 30) ∧
    (t.jobs.row 1).bind Job.lockedUntil = some (seconds 40) := by
  have hclaimed := (launched .empty).trans
    (lone_run (process_run twoClaimed_run (by simp [claimTwo, WorkerCall.connected, loneCall])))
  have hrun := hclaimed.reachable (.init ⟨_, rfl⟩)
  have hrun := hrun.step (.call (k := 0) rfl (.process (.main (.go rfl)) trivial))
  have hrun := hrun.step (.call (k := 0) rfl (.raise rfl rfl))
  have hrun := hrun.step (@RunnerStep.launch single _ "v"
    (fun c hc ↦ by rw [List.mem_singleton.mp hc]) rfl)
  have hrun := hrun.step (.call (k := 0) rfl (.process (.look rfl rfl) trivial))
  have hrun := hrun.step (.call (k := 0) rfl (.connectHeartbeat nofun))
  refine ⟨_, _, hrun, rfl, rfl, ⟨_, rfl, rfl⟩, .call rfl (.process (.beat rfl) rfl), rfl, rfl⟩

end Runner

end DurableQueue

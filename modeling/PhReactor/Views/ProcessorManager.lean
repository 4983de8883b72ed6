/-
  The processor framework: a bounded job queue over the change feed
  (`views/src/processor.rs`).

  Two tasks share one queue of `queueCapacity` jobs.  The DISPATCHER receives the changes and sends
  a job for each processor whose filter matches.  The WORKER takes the jobs in order and calls the
  processor; a job that fails is sent to the same queue once more, until its budget is used up.

  1. `changes_in_sequence`: where no retry is sent behind a job of its own processor and document,
     every processor is called successfully in the order of the changes, with none left out.
     A retry behind a newer job reverses the two (`retry_overtaken`).

  2. `queue_never_deadlocks_iff`: a run stays clear of deadlock exactly when no job with attempts
     left fails while the queue is full.  Then the worker waits for room that only the worker could
     make (`full_queue_deadlock`), and no step of anybody wakes it (`waiting_step`).

  `on_change` is code of the processor; a step of the run says whether it succeeds.  A send takes
  its place in the queue when it is polled first, or when it is woken; a job that fails is sent at
  once, so the two are one step here.
-/
import PhReactor.Processor
import PhReactor.Views.ReadModel

set_option linter.unusedSectionVars false

namespace PhReactor

/-! ## The two tasks -/

/-- `mpsc::channel(1024)`. -/
def queueCapacity : ℕ := 1024

structure Job where
  /-- Index into the manager's processor list. -/
  proc : ℕ
  snap : DocSnapshot
  attempts : ℕ

/-- Is the job for this processor and document. -/
def Job.isFor (p : ℕ) (d : DocId) (job : Job) : Bool :=
  job.proc == p && job.snap.docId == d

/-- The job, to be tried once more. -/
def again (job : Job) : Job := { job with attempts := job.attempts + 1 }

/-- What the worker is doing. -/
inductive Worker where
  /-- `job_rx.recv()`. -/
  | receiving
  /-- `on_change` is running. -/
  | running (job : Job)
  /-- `worker_tx.send(retry)` waits for room. -/
  | resending (retry : Job)

/-- What the worker has in hand. -/
def Worker.inHand : Worker → List Job
  | .receiving => []
  | .running job => [job]
  | .resending retry => [retry]

structure ProcessorManager where
  /-- The filter of each processor. -/
  filters : List ActionFilter
  maxAttempts : ℕ
  /-- The changes the dispatcher has not received yet. -/
  feed : List DocChange
  /-- The jobs of the change in hand that the dispatcher has not sent yet. -/
  sending : List Job
  queue : List Job
  worker : Worker
  /-- The successful calls of `on_change`. -/
  calls : List (ℕ × DocSnapshot)

namespace ProcessorManager

def new (filters : List ActionFilter) (maxAttempts : ℕ) : ProcessorManager :=
  ⟨filters, maxAttempts, [], [], [], .receiving, []⟩

/-- The jobs of a change: one for each processor whose filter matches. -/
def jobsFrom (c : DocChange) : ℕ → List ActionFilter → List Job
  | _, [] => []
  | i, f :: rest =>
    if f.matches c then ⟨i, DocSnapshot.fromChange c, 0⟩ :: jobsFrom c (i + 1) rest
    else jobsFrom c (i + 1) rest

def jobsOf (filters : List ActionFilter) (c : DocChange) : List Job := jobsFrom c 0 filters

/-- One step of the store, the dispatcher or the worker. -/
inductive Turn where
  /-- The store sends a change. -/
  | change (c : DocChange)
  /-- `change_rx.recv()`. -/
  | receive
  /-- `loop_tx.send(job)`. -/
  | send
  /-- `job_rx.recv()`. -/
  | take
  /-- `on_change` returns `Ok`. -/
  | succeed
  /-- `on_change` returns `Err`. -/
  | fail
  /-- The worker's send is woken. -/
  | resend

/-- Is it a step of one of the two tasks. -/
def Turn.ofTask : Turn → Bool
  | .change _ => false
  | _ => true

def step (m : ProcessorManager) : Turn → Option ProcessorManager
  | .change c => some { m with feed := m.feed ++ [c] }
  | .receive =>
    match m.sending, m.feed with
    | [], c :: rest => some { m with feed := rest, sending := jobsOf m.filters c }
    | _, _ => none
  | .send =>
    match m.sending with
    | job :: rest =>
      if m.queue.length < queueCapacity then
        some { m with sending := rest, queue := m.queue ++ [job] }
      else none
    | [] => none
  | .take =>
    match m.worker, m.queue with
    | .receiving, job :: rest => some { m with queue := rest, worker := .running job }
    | _, _ => none
  | .succeed =>
    match m.worker with
    | .running job =>
      some { m with worker := .receiving, calls := m.calls ++ [(job.proc, job.snap)] }
    | _ => none
  | .fail =>
    match m.worker with
    | .running job =>
      if job.attempts < m.maxAttempts then
        let retry := again job
        if m.queue.length < queueCapacity then
          some { m with worker := .receiving, queue := m.queue ++ [retry] }
        else some { m with worker := .resending retry }
      else some { m with worker := .receiving }
    | _ => none
  | .resend =>
    match m.worker with
    | .resending retry =>
      if m.queue.length < queueCapacity then
        some { m with worker := .receiving, queue := m.queue ++ [retry] }
      else none
    | _ => none

variable {m m' : ProcessorManager} {t : Turn}

/-- Everything a step can do. -/
inductive Moves (m : ProcessorManager) : Turn → ProcessorManager → Prop
  | change (c : DocChange) : Moves m (.change c) { m with feed := m.feed ++ [c] }
  | receive {c : DocChange} {rest : List DocChange} (hsending : m.sending = [])
    (hfeed : m.feed = c :: rest) :
    Moves m .receive { m with feed := rest, sending := jobsOf m.filters c }
  | send {job : Job} {rest : List Job} (hsending : m.sending = job :: rest)
    (hroom : m.queue.length < queueCapacity) :
    Moves m .send { m with sending := rest, queue := m.queue ++ [job] }
  | take {job : Job} {rest : List Job} (hworker : m.worker = .receiving)
    (hqueue : m.queue = job :: rest) :
    Moves m .take { m with queue := rest, worker := .running job }
  | succeed {job : Job} (hworker : m.worker = .running job) :
    Moves m .succeed { m with worker := .receiving, calls := m.calls ++ [(job.proc, job.snap)] }
  | retry {job : Job} (hworker : m.worker = .running job) (hleft : job.attempts < m.maxAttempts)
    (hroom : m.queue.length < queueCapacity) :
    Moves m .fail { m with worker := .receiving, queue := m.queue ++ [again job] }
  | wait {job : Job} (hworker : m.worker = .running job) (hleft : job.attempts < m.maxAttempts)
    (hfull : ¬ m.queue.length < queueCapacity) :
    Moves m .fail { m with worker := .resending (again job) }
  | giveUp {job : Job} (hworker : m.worker = .running job)
    (hused : ¬ job.attempts < m.maxAttempts) : Moves m .fail { m with worker := .receiving }
  | resend {retry : Job} (hworker : m.worker = .resending retry)
    (hroom : m.queue.length < queueCapacity) :
    Moves m .resend { m with worker := .receiving, queue := m.queue ++ [retry] }

theorem moves_of_step (h : m.step t = some m') : m.Moves t m' := by
  obtain ⟨filters, maxAttempts, feed, sending, queue, worker, calls⟩ := m
  cases t with
  | change c =>
    obtain rfl := Option.some.inj h
    exact .change c
  | receive =>
    cases sending with
    | cons job rest => cases h
    | nil =>
      cases feed with
      | nil => cases h
      | cons c rest =>
        obtain rfl := Option.some.inj h
        exact .receive rfl rfl
  | send =>
    cases sending with
    | nil => cases h
    | cons job rest =>
      by_cases hroom : queue.length < queueCapacity
      · obtain rfl := Option.some.inj ((if_pos hroom).symm.trans h)
        exact .send rfl hroom
      · cases (if_neg hroom).symm.trans h
  | take =>
    cases worker with
    | running job => cases h
    | resending retry => cases h
    | receiving =>
      cases queue with
      | nil => cases h
      | cons job rest =>
        obtain rfl := Option.some.inj h
        exact .take rfl rfl
  | succeed =>
    cases worker with
    | receiving => cases h
    | resending retry => cases h
    | running job =>
      obtain rfl := Option.some.inj h
      exact .succeed rfl
  | fail =>
    cases worker with
    | receiving => cases h
    | resending retry => cases h
    | running job =>
      by_cases hleft : job.attempts < maxAttempts
      · replace h := (if_pos hleft).symm.trans h
        by_cases hroom : queue.length < queueCapacity
        · obtain rfl := Option.some.inj ((if_pos hroom).symm.trans h)
          exact .retry rfl hleft hroom
        · obtain rfl := Option.some.inj ((if_neg hroom).symm.trans h)
          exact .wait rfl hleft hroom
      · obtain rfl := Option.some.inj ((if_neg hleft).symm.trans h)
        exact .giveUp rfl hleft
  | resend =>
    cases worker with
    | receiving => cases h
    | running job => cases h
    | resending retry =>
      by_cases hroom : queue.length < queueCapacity
      · obtain rfl := Option.some.inj ((if_pos hroom).symm.trans h)
        exact .resend rfl hroom
      · cases (if_neg hroom).symm.trans h

/-! ## The queue is bounded -/

/-- The queue is within its capacity, and the worker only waits while it is full. -/
structure Bounded (m : ProcessorManager) : Prop where
  queue : m.queue.length ≤ queueCapacity
  waiting : ∀ retry, m.worker = .resending retry → m.queue.length = queueCapacity

theorem bounded_new (filters : List ActionFilter) (maxAttempts : ℕ) :
    (new filters maxAttempts).Bounded :=
  ⟨Nat.zero_le _, fun retry hw => by cases hw⟩

theorem bounded_step (h : m.Bounded) (hstep : m.step t = some m') : m'.Bounded := by
  obtain ⟨hqueue, hwaiting⟩ := h
  cases moves_of_step hstep with
  | change c => exact ⟨hqueue, hwaiting⟩
  | receive _ _ => exact ⟨hqueue, hwaiting⟩
  | send _ hroom =>
    refine ⟨?_, fun retry hw => absurd (hwaiting retry hw) (Nat.ne_of_lt hroom)⟩
    rw [List.length_append]
    exact hroom
  | take _ htake =>
    refine ⟨?_, fun retry hw => by cases hw⟩
    rw [htake, List.length_cons] at hqueue
    exact Nat.le_of_succ_le hqueue
  | succeed _ => exact ⟨hqueue, fun retry hw => by cases hw⟩
  | retry _ _ hroom =>
    refine ⟨?_, fun retry hw => by cases hw⟩
    rw [List.length_append]
    exact hroom
  | wait _ _ hfull => exact ⟨hqueue, fun _ _ => le_antisymm hqueue (Nat.le_of_not_lt hfull)⟩
  | giveUp _ _ => exact ⟨hqueue, fun retry hw => by cases hw⟩
  | resend hworker hroom => exact absurd (hwaiting _ hworker) (Nat.ne_of_lt hroom)

/-! ## A worker that waits -/

/-- The worker waits for room. -/
def Waiting (m : ProcessorManager) : Prop := ∃ retry, m.worker = .resending retry

/-- **Nobody wakes a worker that waits**: the dispatcher finds no room either. -/
theorem waiting_step (hb : m.Bounded) (h : m.Waiting) (hstep : m.step t = some m') :
    m'.Waiting := by
  obtain ⟨retry, hwaits⟩ := h
  have hbusy : ∀ {w : Worker}, m.worker = w → w ≠ .resending retry → False := fun hw hne =>
    hne (hw.symm.trans hwaits)
  cases moves_of_step hstep with
  | change c => exact ⟨retry, hwaits⟩
  | receive _ _ => exact ⟨retry, hwaits⟩
  | send _ _ => exact ⟨retry, hwaits⟩
  | take hworker _ => exact (hbusy hworker (by simp)).elim
  | succeed hworker => exact (hbusy hworker (by simp)).elim
  | retry hworker _ _ => exact (hbusy hworker (by simp)).elim
  | wait hworker _ _ => exact (hbusy hworker (by simp)).elim
  | giveUp hworker _ => exact (hbusy hworker (by simp)).elim
  | resend _ hroom => exact absurd (hb.waiting retry hwaits) (Nat.ne_of_lt hroom)

theorem mem_inHand {job : Job} (h : m.worker = .running job) : job ∈ m.worker.inHand := by
  rw [h]
  exact List.mem_singleton_self job

/-- A job with attempts left does not fail while the queue is full. -/
def HasRoom (m : ProcessorManager) : Turn → Prop
  | .fail => ∀ job ∈ m.worker.inHand, job.attempts < m.maxAttempts → m.queue.length < queueCapacity
  | _ => True

instance : Decidable (m.HasRoom t) :=
  match t with
  | .fail => inferInstanceAs (Decidable (∀ job ∈ m.worker.inHand,
      job.attempts < m.maxAttempts → m.queue.length < queueCapacity))
  | .change _ | .receive | .send | .take | .succeed | .resend => .isTrue trivial

/-- A step puts the worker to waiting exactly when it finds no room for a retry. -/
theorem not_waiting_step_iff (h : ¬ m.Waiting) (hstep : m.step t = some m') :
    ¬ m'.Waiting ↔ m.HasRoom t := by
  have hidle : ∀ {m'' : ProcessorManager}, m''.worker = .receiving → ¬ m''.Waiting := by
    rintro m'' hw ⟨retry, hretry⟩
    rw [hw] at hretry
    cases hretry
  cases moves_of_step hstep with
  | change c => exact iff_of_true h trivial
  | receive _ _ => exact iff_of_true h trivial
  | send _ _ => exact iff_of_true h trivial
  | take _ _ => exact iff_of_true (fun ⟨_, hw⟩ => by cases hw) trivial
  | succeed _ => exact iff_of_true (hidle rfl) trivial
  | retry _ _ hroom => exact iff_of_true (hidle rfl) fun _ _ _ => hroom
  | wait hworker hleft hfull =>
    exact iff_of_false (fun hno => hno ⟨_, rfl⟩) fun hroom =>
      hfull (hroom _ (mem_inHand hworker) hleft)
  | @giveUp given hworker hused =>
    refine iff_of_true (hidle rfl) fun job hjob hleft => absurd hleft ?_
    rw [hworker] at hjob
    obtain rfl : job = given := List.mem_singleton.mp hjob
    exact hused
  | resend hworker _ => exact absurd ⟨_, hworker⟩ h

/-- If anything is queued or being retried, a task can take a step; and the worker does not wait for
    room in a full queue, which only the worker could make. -/
structure Live (m : ProcessorManager) : Prop where
  moves : (m.queue ≠ [] ∨ m.sending ≠ [] ∨ m.feed ≠ [] ∨ m.worker ≠ .receiving) →
    ∃ t : Turn, t.ofTask = true ∧ (m.step t).isSome = true
  clear : ¬ (m.Waiting ∧ m.queue.length = queueCapacity)

theorem exists_step (h : ¬ m.Waiting)
    (hwork : m.queue ≠ [] ∨ m.sending ≠ [] ∨ m.feed ≠ [] ∨ m.worker ≠ .receiving) :
    ∃ t : Turn, t.ofTask = true ∧ (m.step t).isSome = true := by
  obtain ⟨filters, maxAttempts, feed, sending, queue, worker, calls⟩ := m
  cases worker with
  | resending retry => exact absurd ⟨retry, rfl⟩ h
  | running job => exact ⟨.succeed, rfl, rfl⟩
  | receiving =>
    cases queue with
    | cons job rest => exact ⟨.take, rfl, rfl⟩
    | nil =>
      -- an empty queue has room
      cases sending with
      | cons job rest => exact ⟨.send, rfl, rfl⟩
      | nil =>
        cases feed with
        | cons c rest => exact ⟨.receive, rfl, rfl⟩
        | nil => simp at hwork

theorem live_iff (hb : m.Bounded) : m.Live ↔ ¬ m.Waiting := by
  constructor
  · exact fun h hw => h.clear ⟨hw, hb.waiting _ hw.choose_spec⟩
  · exact fun h => ⟨exists_step h, fun hw => h hw.1⟩

/-- **When the processor queue does not deadlock.**  A run is live exactly when in all of it no job
    with attempts left failed while the queue was full. -/
theorem queue_never_deadlocks_iff {filters : List ActionFilter} {maxAttempts : ℕ}
    {turns : List Turn} {m : ProcessorManager}
    (h : Lib.CarefulRun step (fun _ _ => True) (new filters maxAttempts) turns m) :
    m.Live ↔ Lib.CarefulRun step HasRoom (new filters maxAttempts) turns m := by
  have hbounded : m.Bounded := h.invariant (I := fun _ m => m.Bounded) (bounded_new ..)
    fun _ _ _ _ hb _ hstep => bounded_step hb hstep
  rw [live_iff hbounded]
  refine h.iff_of_trap (I := Bounded) (T := Waiting) (bounded_new ..) ?_ ?_ ?_ ?_
  · rintro ⟨retry, hw⟩
    cases hw
  · exact fun _ _ _ hb hstep => bounded_step hb hstep
  · exact fun _ _ _ _ hw hstep => not_waiting_step_iff hw hstep
  · exact fun _ _ _ hb hw hstep => waiting_step hb hw hstep

/-! ## What one processor sees of one document -/

/-- The snapshots of the jobs for one processor and document, in order. -/
def snapsFor (p : ℕ) (d : DocId) (l : List Job) : List DocSnapshot :=
  (l.filter (Job.isFor p d)).map Job.snap

/-- The successful calls of the processor for the document. -/
def callsFor (m : ProcessorManager) (p : ℕ) (d : DocId) : List DocSnapshot :=
  (m.calls.filter fun call => call.1 == p && call.2.docId == d).map Prod.snd

/-- The change that a turn sends, if the processor is to see it. -/
def offered (filters : List ActionFilter) (p : ℕ) (d : DocId) : Turn → List DocSnapshot
  | .change c =>
    if c.docId == d && filters[p]?.any (·.matches c) then [DocSnapshot.fromChange c] else []
  | _ => []

/-- The jobs on their way: in hand, queued, about to be sent, and of changes to come. -/
def ahead (m : ProcessorManager) : List Job :=
  m.worker.inHand ++ m.queue ++ m.sending ++ m.feed.flatMap (jobsOf m.filters)

theorem snapsFor_append (p : ℕ) (d : DocId) (l l' : List Job) :
    snapsFor p d (l ++ l') = snapsFor p d l ++ snapsFor p d l' := by
  unfold snapsFor
  rw [List.filter_append, List.map_append]

theorem snapsFor_singleton (p : ℕ) (d : DocId) (job : Job) :
    snapsFor p d [job] = if job.isFor p d then [job.snap] else [] := by
  unfold snapsFor
  cases h : job.isFor p d <;> simp [h]

theorem snapsFor_cons (p : ℕ) (d : DocId) (job : Job) (l : List Job) :
    snapsFor p d (job :: l) = (if job.isFor p d then [job.snap] else []) ++ snapsFor p d l := by
  rw [← snapsFor_singleton, ← snapsFor_append]
  rfl

theorem snapsFor_jobsFrom (p : ℕ) (d : DocId) (c : DocChange) :
    ∀ (filters : List ActionFilter) (i : ℕ), snapsFor p d (jobsFrom c i filters) =
      if c.docId == d && (decide (i ≤ p) && filters[p - i]?.any (·.matches c)) then
        [DocSnapshot.fromChange c] else [] := by
  intro filters
  induction filters with
  | nil =>
    intro i
    simp [jobsFrom, snapsFor]
  | cons f rest ih =>
    intro i
    have hrest := ih (i + 1)
    unfold jobsFrom
    rcases Nat.lt_trichotomy i p with hlt | rfl | hgt
    · -- the head is for an earlier processor
      have hsub : p - i = (p - (i + 1)) + 1 := by omega
      have hne : (i == p) = false := beq_false_of_ne (Nat.ne_of_lt hlt)
      rw [hsub, List.getElem?_cons_succ]
      split
      · rw [snapsFor_cons, hrest]
        simp [Job.isFor, hne, Nat.succ_le_of_lt hlt, hlt.le]
      · rw [hrest]
        simp [Nat.succ_le_of_lt hlt, hlt.le]
    · -- the head is for this one, the rest for later ones
      have hlater : snapsFor i d (jobsFrom c (i + 1) rest) = [] := by
        rw [hrest]
        simp
      cases hf : f.matches c with
      | true =>
        rw [if_pos rfl, snapsFor_cons, hlater]
        simp [Job.isFor, hf, DocSnapshot.fromChange]
      | false =>
        rw [if_neg Bool.false_ne_true, hlater]
        simp [hf]
    · have hne : (i == p) = false := beq_false_of_ne (Nat.ne_of_gt hgt)
      have hno : ¬ i ≤ p := Nat.not_le_of_lt hgt
      have hno' : ¬ i + 1 ≤ p := by omega
      split
      · rw [snapsFor_cons, hrest]
        simp [Job.isFor, hne, hno, hno']
      · rw [hrest]
        simp [hno, hno']

/-- **The jobs of a change that are for one processor and document.** -/
theorem snapsFor_jobsOf (filters : List ActionFilter) (p : ℕ) (d : DocId) (c : DocChange) :
    snapsFor p d (jobsOf filters c) = offered filters p d (.change c) := by
  unfold jobsOf
  rw [snapsFor_jobsFrom]
  simp [offered]

theorem callsFor_concat (m : ProcessorManager) (worker : Worker) (job : Job) (p : ℕ) (d : DocId) :
    callsFor { m with worker := worker, calls := m.calls ++ [(job.proc, job.snap)] } p d =
      m.callsFor p d ++ snapsFor p d [job] := by
  unfold callsFor snapsFor
  rw [List.filter_append, List.map_append]
  cases hfor : job.isFor p d with
  | true =>
    have hkey : (job.proc == p && job.snap.docId == d) = true := hfor
    simp [hfor, hkey]
  | false =>
    have hkey : (job.proc == p && job.snap.docId == d) = false := hfor
    simp [hfor, hkey]

/-- A job that fails has attempts left. -/
def WithinBudget (m : ProcessorManager) : Turn → Prop
  | .fail => ∀ job ∈ m.worker.inHand, job.attempts < m.maxAttempts
  | _ => True

instance : Decidable (m.WithinBudget t) :=
  match t with
  | .fail => inferInstanceAs (Decidable (∀ job ∈ m.worker.inHand, job.attempts < m.maxAttempts))
  | .change _ | .receive | .send | .take | .succeed | .resend => .isTrue trivial

/-- No job of the same processor and document is queued when a retry is sent. -/
def KeepsPlace (m : ProcessorManager) : Turn → Prop
  | .fail => ∀ job ∈ m.worker.inHand, job.attempts < m.maxAttempts →
      m.queue.length < queueCapacity →
        ∀ other ∈ m.queue, other.isFor job.proc job.snap.docId = false
  | _ => True

instance : Decidable (m.KeepsPlace t) :=
  match t with
  | .fail => inferInstanceAs (Decidable (∀ job ∈ m.worker.inHand, job.attempts < m.maxAttempts →
      m.queue.length < queueCapacity →
        ∀ other ∈ m.queue, other.isFor job.proc job.snap.docId = false))
  | .change _ | .receive | .send | .take | .succeed | .resend => .isTrue trivial

/-- What a processor has seen of a document, and what is on its way, is what it was to see. -/
structure InOrder (filters : List ActionFilter) (turns : List Turn) (m : ProcessorManager) :
    Prop where
  manages : m.filters = filters
  all : ∀ p d, m.callsFor p d ++ snapsFor p d m.ahead = turns.flatMap (offered filters p d)

/-- A step that sends no change and moves no job past another of its kind. -/
theorem InOrder.same {filters : List ActionFilter} {turns : List Turn}
    (h : InOrder filters turns m) (hfilters : m'.filters = m.filters)
    (hoffer : ∀ p d, offered filters p d t = [])
    (hsame : ∀ p d, m'.callsFor p d ++ snapsFor p d m'.ahead =
      m.callsFor p d ++ snapsFor p d m.ahead) : InOrder filters (turns ++ [t]) m' := by
  refine ⟨hfilters.trans h.manages, fun p d => ?_⟩
  rw [hsame, h.all, List.flatMap_append, List.flatMap_singleton, hoffer, List.append_nil]

/-- A retry at the end of a queue that has no other job of its kind has kept its place. -/
theorem snapsFor_retry {job : Job} {queue : List Job}
    (hclear : ∀ other ∈ queue, other.isFor job.proc job.snap.docId = false) (p : ℕ) (d : DocId) :
    snapsFor p d (queue ++ [again job]) = snapsFor p d (job :: queue) := by
  rw [snapsFor_append, snapsFor_singleton, snapsFor_cons]
  show snapsFor p d queue ++ (if job.isFor p d then [job.snap] else []) = _
  cases hfor : job.isFor p d with
  | false => simp
  | true =>
    have hkey : job.proc = p ∧ job.snap.docId = d := by simpa [Job.isFor] using hfor
    have hnone : snapsFor p d queue = [] := by
      unfold snapsFor
      rw [List.filter_eq_nil_iff.mpr, List.map_nil]
      intro other hother
      rw [← hkey.1, ← hkey.2, hclear other hother]
      exact Bool.false_ne_true
    rw [hnone]
    simp

/-- **Step lemma.** -/
theorem inOrder_step {filters : List ActionFilter} {turns : List Turn} (hb : m.Bounded)
    (h : InOrder filters turns m) (hbudget : m.WithinBudget t) (hplace : m.KeepsPlace t)
    (hstep : m.step t = some m') : InOrder filters (turns ++ [t]) m' := by
  cases moves_of_step hstep with
  | change c =>
    refine ⟨h.manages, fun p d => ?_⟩
    rw [List.flatMap_append, List.flatMap_singleton, ← h.all, ← snapsFor_jobsOf, List.append_assoc,
      ← snapsFor_append, ← h.manages]
    show _ ++ snapsFor p d (_ ++ (m.feed ++ [c]).flatMap _) = _
    rw [List.flatMap_append, List.flatMap_singleton, ← List.append_assoc]
    rfl
  | receive hsending hfeed =>
    refine h.same rfl (fun _ _ => rfl) fun p d => ?_
    unfold ahead
    rw [hsending, hfeed, List.flatMap_cons, List.append_nil, List.append_assoc]
    rfl
  | send hsending _ =>
    refine h.same rfl (fun _ _ => rfl) fun p d => ?_
    unfold ahead
    rw [hsending]
    simp [callsFor]
  | take hworker hqueue =>
    refine h.same rfl (fun _ _ => rfl) fun p d => ?_
    unfold ahead
    rw [hworker, hqueue]
    simp [callsFor, Worker.inHand]
  | @succeed job hworker =>
    refine h.same rfl (fun _ _ => rfl) fun p d => ?_
    have hcalled : callsFor { m with
        worker := .receiving, calls := m.calls ++ [(job.proc, job.snap)] } p d =
        m.callsFor p d ++ snapsFor p d [job] := callsFor_concat ..
    rw [hcalled, List.append_assoc, ← snapsFor_append]
    unfold ahead
    rw [hworker]
    simp [Worker.inHand]
  | @retry job hworker hleft hroom =>
    refine h.same rfl (fun _ _ => rfl) fun p d => ?_
    have hkept := snapsFor_retry (hplace job (mem_inHand hworker) hleft hroom) p d
    have hbefore : m.ahead =
        (job :: m.queue) ++ (m.sending ++ m.feed.flatMap (jobsOf m.filters)) := by
      unfold ahead
      rw [hworker]
      simp [Worker.inHand]
    have hafter : ahead { m with worker := .receiving, queue := m.queue ++ [again job] } =
        (m.queue ++ [again job]) ++ (m.sending ++ m.feed.flatMap (jobsOf m.filters)) := by
      simp [ahead, Worker.inHand]
    rw [hbefore, hafter, snapsFor_append, hkept, ← snapsFor_append]
    rfl
  | wait hworker _ _ =>
    refine h.same rfl (fun _ _ => rfl) fun p d => ?_
    unfold ahead
    rw [hworker]
    simp only [Worker.inHand, snapsFor_append, snapsFor_singleton]
    rfl
  | giveUp hworker hused => exact absurd (hbudget _ (mem_inHand hworker)) hused
  | resend hworker hroom => exact absurd (hb.waiting _ hworker) (Nat.ne_of_lt hroom)

/-- **A processor sees each document's changes in order.**  In every run in which no retry is sent
    behind a job of its own processor and document, and every failure is within the budget: the
    successful calls of a processor for a document are the first changes it was to see, in their
    order; and all of them, the newest last, once none is on its way. -/
theorem changes_in_sequence {filters : List ActionFilter} {maxAttempts : ℕ} {turns : List Turn}
    {m : ProcessorManager}
    (h : Lib.CarefulRun step (fun m t => m.WithinBudget t ∧ m.KeepsPlace t)
      (new filters maxAttempts) turns m) (p : ℕ) (d : DocId) :
    m.callsFor p d <+: turns.flatMap (offered filters p d) ∧
      (snapsFor p d m.ahead = [] → m.callsFor p d = turns.flatMap (offered filters p d)) := by
  have hinv := h.invariant (I := fun turns m => m.Bounded ∧ InOrder filters turns m)
    ⟨bounded_new .., rfl, fun _ _ => rfl⟩
    fun _ _ _ _ hm hcare hstep =>
      ⟨bounded_step hm.1 hstep, inOrder_step hm.1 hm.2 hcare.1 hcare.2 hstep⟩
  have hall := hinv.2.all p d
  refine ⟨⟨_, hall⟩, fun hnone => ?_⟩
  rw [hnone, List.append_nil] at hall
  exact hall

end ProcessorManager

section

open Sample ProcessorManager

attribute [local instance] Sample.primitives

/-! ### One processor, one document -/

/-- A processor that reacts to everything. -/
def anyChange : List ActionFilter := [⟨[], none, none, none⟩]

/-- The change of the sample document at that time. -/
def changeAt (ts : U64) : DocChange := changeOf docId (Entry.new docId) ts none

/-- Two changes are queued, and the first one fails once. -/
def overtaking : List Turn :=
  [.change (changeAt 1), .change (changeAt 2), .receive, .send, .receive, .send,
    .take, .fail, .take, .succeed, .take, .succeed]

theorem overtaking_reverses :
    (overtaking.foldlM (fun m t => if decide (m.WithinBudget t) then m.step t else none)
      (new anyChange 3)).any (fun m => (m.callsFor 0 docId).map DocSnapshot.ts == [2, 1]) =
        true := by
  decide +kernel

theorem overtaking_offered :
    (overtaking.flatMap (ProcessorManager.offered anyChange 0 docId)).map DocSnapshot.ts =
      [1, 2] := by
  decide +kernel

/-- **A retry is overtaken**: it is sent behind the newer change of its document. -/
theorem retry_overtaken :
    ¬ ∀ (filters : List ActionFilter) (maxAttempts : ℕ) (turns : List Turn) (m : ProcessorManager),
      Lib.CarefulRun step (fun m t => m.WithinBudget t) (new filters maxAttempts) turns m →
      ∀ p d, m.callsFor p d <+: turns.flatMap (ProcessorManager.offered filters p d) := by
  intro h
  obtain ⟨m, hm, hcalls⟩ := (Option.any_eq_true _ _).mp overtaking_reverses
  have hrun : Lib.CarefulRun step (fun m t => m.WithinBudget t) (new anyChange 3) overtaking m :=
    .of_guarded (fun _ _ hg => of_decide_eq_true hg) hm
  obtain ⟨rest, hprefix⟩ := h _ _ _ _ hrun 0 docId
  have htimes := congrArg (List.map DocSnapshot.ts) hprefix
  rw [List.map_append, eq_of_beq hcalls, overtaking_offered] at htimes
  exact absurd (List.cons.inj htimes).1 (by decide)

/-- The first change fails once, and is done before the second one is queued. -/
def retrying : List Turn :=
  [.change (changeAt 1), .receive, .send, .take, .fail, .take, .succeed,
    .change (changeAt 2), .receive, .send, .take, .succeed]

theorem retrying_runs :
    (retrying.foldlM (fun m t => if decide (m.WithinBudget t ∧ m.KeepsPlace t) then m.step t
      else none) (new anyChange 3)).any (fun m => (snapsFor 0 docId m.ahead).isEmpty) = true := by
  decide +kernel

theorem changes_in_sequence_retried : ∃ m,
    Lib.CarefulRun step (fun m t => m.WithinBudget t ∧ m.KeepsPlace t) (new anyChange 3)
        retrying m ∧
      m.callsFor 0 docId = retrying.flatMap (ProcessorManager.offered anyChange 0 docId) := by
  obtain ⟨m, hm, hdone⟩ := (Option.any_eq_true _ _).mp retrying_runs
  have hrun : Lib.CarefulRun step (fun m t => m.WithinBudget t ∧ m.KeepsPlace t)
      (new anyChange 3) retrying m := .of_guarded (fun _ _ hg => of_decide_eq_true hg) hm
  exact ⟨m, hrun, (changes_in_sequence hrun 0 docId).2 (List.isEmpty_iff.mp hdone)⟩

/-! ### A full queue -/

/-- A change is sent, received and queued. -/
def round : List Turn := [.change (changeAt 1), .receive, .send]

def sampleJob : Job := ⟨0, DocSnapshot.fromChange (changeAt 1), 0⟩

theorem jobsOf_changeAt : jobsOf anyChange (changeAt 1) = [sampleJob] := by
  have hmatches : (ActionFilter.mk [] none none none).matches (changeAt 1) = true := by
    decide +kernel
  unfold jobsOf anyChange jobsFrom jobsFrom
  rw [if_pos hmatches]
  rfl

/-- The manager with that worker and queue, and nothing else to do. -/
def withQueue (worker : Worker) (queue : List Job) : ProcessorManager :=
  ⟨anyChange, 3, [], [], queue, worker, []⟩

theorem foldlM_round {worker : Worker} {queue : List Job} (hroom : queue.length < queueCapacity) :
    round.foldlM step (withQueue worker queue) =
      some (withQueue worker (queue ++ [sampleJob])) := by
  have hreceive : step { withQueue worker queue with feed := [changeAt 1] } .receive =
      some { withQueue worker queue with sending := [sampleJob] } := by
    rw [← jobsOf_changeAt]
    rfl
  have hsend : step { withQueue worker queue with sending := [sampleJob] } .send =
      some (withQueue worker (queue ++ [sampleJob])) := if_pos hroom
  have hchange : step (withQueue worker queue) (.change (changeAt 1)) =
      some { withQueue worker queue with feed := [changeAt 1] } := rfl
  unfold round
  simp only [List.foldlM_cons, List.foldlM_nil, hchange, hreceive, hsend, Option.bind_eq_bind,
    Option.bind_some, Option.pure_def]

/-- That many rounds. -/
def rounds (n : ℕ) : List Turn := (List.replicate n round).flatten

theorem foldlM_rounds {worker : Worker} : ∀ (n : ℕ) {queue : List Job},
    queue.length + n ≤ queueCapacity → (rounds n).foldlM step (withQueue worker queue) =
      some (withQueue worker (queue ++ List.replicate n sampleJob)) := by
  intro n
  induction n with
  | zero =>
    intro queue _
    rw [List.replicate_zero, List.append_nil]
    rfl
  | succ n ih =>
    intro queue hroom
    have hlen : (queue ++ [sampleJob]).length + n ≤ queueCapacity := by
      rw [List.length_append, List.length_singleton]
      omega
    have hrest := ih hlen
    unfold rounds
    rw [List.replicate_succ, List.flatten_cons, List.foldlM_append, foldlM_round (by omega),
      List.replicate_succ]
    rw [List.append_assoc] at hrest
    exact hrest

theorem step_fail_full {job : Job} {queue : List Job} (hleft : job.attempts < 3)
    (hfull : queue.length = queueCapacity) : step (withQueue (.running job) queue) .fail =
      some (withQueue (.resending (again job)) queue) := by
  have hno : ¬ queue.length < queueCapacity := hfull ▸ Nat.lt_irrefl _
  exact (if_pos hleft).trans (if_neg hno)

/-- The first job is taken, `n` jobs are queued behind it, and it fails. -/
def burst (n : ℕ) : List Turn := rounds 1 ++ ([.take] ++ (rounds n ++ [.fail]))

theorem burst_waits {n : ℕ} (hn : n = queueCapacity) : (burst n).foldlM step (new anyChange 3) =
    some (withQueue (.resending (again sampleJob)) (List.replicate n sampleJob)) := by
  have hfirst : (rounds 1).foldlM step (new anyChange 3) =
      some (withQueue .receiving [sampleJob]) :=
    @foldlM_rounds .receiving 1 [] (by decide)
  have htake : step (withQueue .receiving [sampleJob]) .take =
      some (withQueue (.running sampleJob) []) := rfl
  have hfill : (rounds n).foldlM step (withQueue (.running sampleJob) []) =
      some (withQueue (.running sampleJob) (List.replicate n sampleJob)) :=
    foldlM_rounds n (by rw [List.length_nil, Nat.zero_add, hn])
  have hfail := @step_fail_full sampleJob (List.replicate n sampleJob) (by decide)
    (by rw [List.length_replicate, hn])
  unfold burst
  simp only [List.foldlM_append, List.foldlM_cons, List.foldlM_nil, hfirst, htake, hfill, hfail,
    Option.bind_eq_bind, Option.bind_some, Option.pure_def]

/-- **The full queue deadlocks**: a job fails while a burst of changes fills the queue, and the
    worker waits for room that only the worker could make. -/
theorem full_queue_deadlock :
    ¬ ∀ (filters : List ActionFilter) (maxAttempts : ℕ) (turns : List Turn) (m : ProcessorManager),
      Lib.CarefulRun step (fun _ _ => True) (new filters maxAttempts) turns m → m.Live := by
  intro h
  have hlive := h _ _ _ _ (.of_foldlM (burst_waits rfl) fun _ _ _ => trivial)
  exact hlive.clear ⟨⟨_, rfl⟩, List.length_replicate⟩

/-- A failure with room in the queue leaves the run live. -/
theorem queue_never_deadlocks_retried : ∃ m,
    retrying.foldlM step (new anyChange 3) = some m ∧ m.Live := by
  have hruns : (retrying.foldlM (fun m t => if decide (m.HasRoom t) then m.step t else none)
      (new anyChange 3)).isSome = true := by
    decide +kernel
  obtain ⟨m, hm⟩ := Option.isSome_iff_exists.mp hruns
  have hroom : Lib.CarefulRun step HasRoom (new anyChange 3) retrying m :=
    .of_guarded (fun _ _ hg => of_decide_eq_true hg) hm
  have hlive := (queue_never_deadlocks_iff (hroom.mono fun _ _ _ => trivial)).mpr hroom
  exact ⟨m, hroom.foldlM_eq, hlive⟩

end

end PhReactor

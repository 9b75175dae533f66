import Colix.Foundation.TwoRuns
import Colix.Ipc.IpcCalls

/-!
# Payloads stay between sender and receiver

Two runs of the same calls, whose sends carry other bytes when they are not to `r`, give `r` the
same messages (`payloads_confined`) as long as every send that `r` is given carries its bytes: a
send with a length and NULL data hands on what the last message in its slot left there.

The two kernels differ in their message pools only (`Alike`), and each operation is followed on
both by a lemma that moves the pool out of the way.
-/

set_option autoImplicit false
set_option relaxedAutoImplicit false

namespace Colix.Ipc

open Foundation Proc

/-! ### Two runs -/

/-- Calls that differ at most in payload bytes of messages not addressed to `r`, and in what the
receivers' buffers held before. -/
inductive SameFor (r : Pid) : IpcCall → IpcCall → Prop
  | send (dst : Pid) (type len : Word32) {data data' : Option (ℕ → Byte)}
      (hnull : data = none ↔ data' = none)
      (hbytes : dst = r → ∀ i < len.toNat, data.map (· i) = data'.map (· i)) :
      SameFor r (.send dst type data len) (.send dst type data' len)
  | recv {out out' : Option IpcMessage} (hnull : out = none ↔ out' = none) :
      SameFor r (.recv out) (.recv out')
  | call (kernelCall : KernelCall) : SameFor r (.call kernelCall) (.call kernelCall)
  | resume (p : ProcIndex) : SameFor r (.resume p) (.resume p)

/-- The message a step delivers to `r`. -/
def IpcCall.deliveredTo (r : Pid) (k : Kernel) : IpcCall → Option Message
  | .recv out =>
    match ipcRecv k out with
    | .returned 0 (some message) _ => if k.currentPid = r then some (heldMessage message) else none
    | _ => none
  | _ => none

/-- The messages `r` receives along calls made one after another. -/
def received (entryPoints : EntryPoints) (r : Pid) : Kernel → List IpcCall → List Message :=
  outputs (fun k call ↦ call.perform entryPoints k) (fun k call ↦ call.deliveredTo r k)

/-- The step does not have a send to `r` admitted with a length and NULL data. -/
def CarriesBytes (r : Pid) (k : Kernel) : IpcCall → Prop
  | .send dst _ none len => dst = r → procFind k dst ≠ none → Admits k len → len = 0#32
  | _ => True

/-! ### Kernels that differ in their pools -/

section WithPool

variable (k : Kernel) (pool : MsgIndex → IpcMessage)

@[simp] theorem withPool_procTable : (withPool k pool).procTable = k.procTable := rfl

@[simp] theorem withPool_currentProc : (withPool k pool).currentProc = k.currentProc := rfl

@[simp] theorem withPool_msgPool : (withPool k pool).msgPool = pool := rfl

theorem requeue_withPool (old : ProcIndex) :
    requeue (withPool k pool) old = withPool (requeue k old) pool := by
  rw [requeue, requeue, apply_ite (withPool · pool)]
  rfl

theorem dispatch_withPool (p : ProcIndex) :
    dispatch (withPool k pool) p = withPool (dispatch k p) pool := by
  rw [dispatch, dispatch]
  dsimp only
  rw [apply_ite (withPool · pool)]
  rfl

theorem schedule_withPool :
    schedule (withPool k pool) = (withPool (schedule k).1 pool, (schedule k).2) := by
  cases hcurrent : k.currentProc with
  | none =>
    rw [schedule, schedule, withPool_currentProc, hcurrent]
  | some old =>
    have hcurrent' : (withPool k pool).currentProc = some old := hcurrent
    rw [schedule_of_current hcurrent, schedule_of_current hcurrent', requeue_withPool,
      show nextReady (withPool (requeue k old) pool) old = nextReady (requeue k old) old from rfl]
    cases nextReady (requeue k old) old with
    | some p =>
      dsimp only
      rw [dispatch_withPool]
    | none =>
      by_cases hready : ((requeue k old).procTable old).state = .ready
      · have hready' : ((withPool (requeue k old) pool).procTable old).state = .ready := hready
        rw [if_pos hready, if_pos hready']
        rfl
      · have hready' : ((withPool (requeue k old) pool).procTable old).state ≠ .ready := hready
        rw [if_neg hready, if_neg hready']

theorem procWakeup_withPool (p : ProcIndex) :
    procWakeup (withPool k pool) p = withPool (procWakeup k p) pool := by
  rw [procWakeup, procWakeup, apply_ite (withPool · pool)]
  rfl

theorem procSleep_withPool (ms : Word) :
    procSleep (withPool k pool) ms = (withPool (procSleep k ms).1 pool, (procSleep k ms).2) := by
  rw [procSleep, procSleep, withPool_currentProc]
  cases k.currentProc with
  | none => rfl
  | some current =>
    exact schedule_withPool (k.modify current fun process ↦
      { process with sleepTicks := sleepTicksOf ms, state := .sleeping }) pool

theorem procExit_withPool (code : Int32) :
    procExit (withPool k pool) code =
      (withPool (procExit k code).1 pool, (procExit k code).2) := by
  rw [procExit, procExit, withPool_currentProc]
  cases k.currentProc with
  | none => rfl
  | some current =>
    exact schedule_withPool (k.modify current fun process ↦
      { process with state := .zombie, exitCode := code }) pool

theorem timerInterrupt_withPool :
    (timerInterrupt (withPool k pool)).1 = withPool (timerInterrupt k).1 pool := by
  have hcounted : countdownAll { withPool k pool with ticks := (withPool k pool).ticks + 1#64 } =
      withPool (countdownAll { k with ticks := k.ticks + 1#64 }) pool := rfl
  rw [timerInterrupt, timerInterrupt, schedTick, schedTick, hcounted]
  split_ifs with hslice hslice' hslice'
  · rw [schedule_withPool]
  · exact absurd hslice hslice'
  · exact absurd hslice' hslice
  · rfl

theorem procCreate_withPool (entryPoints : EntryPoints) (kstack : Word) (name : List Byte)
    (entry : Word) : (procCreate entryPoints kstack name entry (withPool k pool)).2 =
      withPool (procCreate entryPoints kstack name entry k).2 pool := by
  rw [procCreate, procCreate, show allocProc (withPool k pool) = allocProc k from rfl]
  cases allocProc k with
  | none => rfl
  | some p =>
    dsimp only
    split_ifs <;> rfl

theorem procCreateElf_withPool (entryPoints : EntryPoints) (pages : ElfPages) (entry : Word) :
    (procCreateElf entryPoints pages entry (withPool k pool)).2 =
      withPool (procCreateElf entryPoints pages entry k).2 pool := by
  rw [procCreateElf, procCreateElf, allocProcSlot, allocProcSlot,
    withPool_procTable]
  cases (List.finRange procMax).find? fun i ↦ (k.procTable i).state == .unused <;> rfl

/-- A kernel call neither reads nor writes the pool. -/
theorem perform_withPool (entryPoints : EntryPoints) (call : KernelCall) :
    (call.perform entryPoints (withPool k pool)).1 =
      withPool (call.perform entryPoints k).1 pool := by
  cases call with
  | timer => exact timerInterrupt_withPool k pool
  | yield => exact congrArg Prod.fst (schedule_withPool k pool)
  | sleep ms => exact congrArg Prod.fst (procSleep_withPool k pool ms)
  | exit code => exact congrArg Prod.fst (procExit_withPool k pool code)
  | create kstack name entry => exact procCreate_withPool k pool entryPoints kstack name entry
  | createElf pages entry => exact procCreateElf_withPool k pool entryPoints pages entry

/-- Queueing a message writes the same outside the pool, whatever the pool holds. -/
theorem queuedState_withPool (target : ProcIndex) (m : MsgIndex) (type len : Word32)
    (data data' : Option (ℕ → Byte)) :
    queuedState (withPool k pool) target m type data' len =
      withPool (queuedState k target m type data len)
        (queuedState (withPool k pool) target m type data' len).msgPool := by
  simp only [queuedState, enqueue, setMessage_procTable]
  rw [withPool_procTable]
  cases (k.procTable target).msgTail <;> rfl

/-- Unlinking a message leaves the pool alone, and writes the same outside it when the pools have
the same links. -/
theorem dequeue_withPool (current : ProcIndex) (m : MsgIndex) (out out' : IpcMessage)
    (hnext : (pool m).next = (k.msgPool m).next) :
    (dequeue (withPool k pool) current m out').2 = withPool (dequeue k current m out).2 pool := by
  simp only [dequeue, withPool_msgPool, hnext,
    Kernel.modify_procTable_self]
  split_ifs <;> rfl

end WithPool

/-! ### One step of two runs -/

/-- Two kernels that differ in their message pools only, with the same links and the same messages
in the queue of `r`. -/
structure Alike (r : Pid) (k k' : Kernel) : Prop where
  order : QueuesInOrder k
  eq_withPool : k' = withPool k k'.msgPool
  next_eq : ∀ m, (k'.msgPool m).next = (k.msgPool m).next
  held_eq : ∀ q, (k.procTable q).pid = r → ∀ m ∈ queueSlots k q,
    heldMessage (k'.msgPool m) = heldMessage (k.msgPool m)

variable {k k' next next' : Kernel} {r : Pid} {entryPoints : EntryPoints}

theorem Alike.refl (r : Pid) (horder : QueuesInOrder k) : Alike r k k :=
  ⟨horder, rfl, fun _ ↦ rfl, fun _ _ _ _ ↦ rfl⟩

/-- A step that writes no message and queues none for `r` keeps the kernels alike. -/
theorem Alike.outside (halike : Alike r k k') (horder : QueuesInOrder next)
    (hnext : next' = withPool next k'.msgPool) (hpool : next.msgPool = k.msgPool)
    (hslots : ∀ q, (next.procTable q).pid = r → ∀ m ∈ queueSlots next q,
      (k.procTable q).pid = r ∧ m ∈ queueSlots k q) : Alike r next next' := by
  have hpool' : next'.msgPool = k'.msgPool := by rw [hnext, withPool_msgPool]
  refine ⟨horder, by rw [hpool', ← hnext], fun m ↦ ?_, fun q hq m hm ↦ ?_⟩
  · rw [hpool, hpool']
    exact halike.next_eq m
  · obtain ⟨hpid, hbefore⟩ := hslots q hq m hm
    rw [hpool, hpool']
    exact halike.held_eq q hpid m hbefore

/-- The same for a step that keeps every mailbox. -/
theorem Alike.kept (halike : Alike r k k') (hkept : ProcessesKept k next)
    (hnext : next' = withPool next k'.msgPool) : Alike r next next' := by
  obtain ⟨events, hinv⟩ := halike.order
  refine halike.outside ⟨events, hinv.kept hkept⟩ hnext hkept.msgPool_eq fun q hq m hm ↦ ?_
  rw [hkept.pid_eq] at hq
  rw [(queueSlots_congr hkept.msgPool_eq (msgQueue_of_kept hkept q)).1] at hm
  exact ⟨hq, hm⟩

/-- The same for a step that adds a process. -/
theorem Alike.added (halike : Alike r k k') {p : ProcIndex} (hadded : ProcessAdded k next p)
    (hnext : next' = withPool next k'.msgPool) : Alike r next next' := by
  obtain ⟨events, hinv⟩ := halike.order
  have hafter := hinv.added hadded
  refine halike.outside ⟨events, hafter⟩ hnext hadded.msgPool_eq fun q hq m hm ↦ ?_
  have hne : q ≠ p := by
    rintro rfl
    have hhead : queueHead next q = none :=
      congrArg (fun mailbox ↦ mailbox.2.1) hadded.mailbox_added
    rw [(hafter.queues.chain q).head_eq_none_iff.mp hhead] at hm
    exact List.not_mem_nil hm
  rw [hadded.procTable_of_ne q hne] at hq
  have hhead : (next.procTable q).msgQueue = (k.procTable q).msgQueue := by
    rw [hadded.procTable_of_ne q hne]
  rw [(queueSlots_congr hadded.msgPool_eq hhead).1] at hm
  exact ⟨hq, hm⟩

/-- A kernel call keeps the kernels alike. -/
theorem Alike.perform (halike : Alike r k k') (call : KernelCall) :
    Alike r (call.perform entryPoints k).1 (call.perform entryPoints k').1 := by
  have hnext : (call.perform entryPoints k').1 =
      withPool (call.perform entryPoints k).1 k'.msgPool := by
    rw [← perform_withPool, ← halike.eq_withPool]
  obtain ⟨events, hinv⟩ := halike.order
  rcases call.perform_cases hinv.pids.current entryPoints with hkept | ⟨p, hadded⟩
  · exact halike.kept hkept hnext
  · exact halike.added hadded hnext

/-- A slot other than the one a send takes holds the message it held. -/
theorem heldMessage_queuedState_of_ne {target : ProcIndex} {m slot : MsgIndex} {type len : Word32}
    {data : Option (ℕ → Byte)} (htail : (k.procTable target).msgTail ≠ some m) (hne : slot ≠ m) :
    heldMessage ((queuedState k target m type data len).msgPool slot) =
      heldMessage (k.msgPool slot) := by
  rw [queuedState_msgPool k target m slot type data len htail, if_neg hne]
  split_ifs <;> rfl

/-- What a slot holds after a send that carries its bytes. -/
theorem heldMessage_filledMessage_of_bytes {sender : Pid} {type len : Word32}
    {data data' : Option (ℕ → Byte)} {message message' : IpcMessage} (hlen : len.toNat ≤ 256)
    (hdata : 0#32 < len → data ≠ none) (hnull : data = none ↔ data' = none)
    (hbytes : ∀ i < len.toNat, data.map (· i) = data'.map (· i)) :
    heldMessage (filledMessage sender type data' len message') =
      heldMessage (filledMessage sender type data len message) := by
  have hsent : sentMessage sender type data' len = sentMessage sender type data len := by
    cases data with
    | none => rw [hnull.mp rfl]
    | some src =>
      obtain ⟨src', rfl⟩ := Option.ne_none_iff_exists'.mp (hnull.not.mp (Option.some_ne_none src))
      refine congrArg (Message.mk sender type len) (List.map_congr_left fun i hi ↦ ?_)
      exact (Option.some.inj (hbytes i (List.mem_range.mp hi))).symm
  rw [heldMessage_filledMessage _ _ _ _ _ hlen hdata,
    heldMessage_filledMessage _ _ _ _ _ hlen fun hpos ↦ hnull.not.mp (hdata hpos), hsent]

/-- Queueing a message keeps the kernels alike, if for `r` it is the same one. -/
theorem Alike.queued (halike : Alike r k k') {dst : Pid} {target : ProcIndex} {m : MsgIndex}
    {type len : Word32} {data data' : Option (ℕ → Byte)} (htarget : procFind k dst = some target)
    (hlen : len.toNat ≤ 256) (hunused : k.msgUsed m = false)
    (hcarries : dst = r → 0#32 < len → data ≠ none) (hnull : data = none ↔ data' = none)
    (hbytes : dst = r → ∀ i < len.toNat, data.map (· i) = data'.map (· i)) :
    Alike r (procWakeup (queuedState k target m type data len) target)
      (procWakeup (queuedState k' target m type data' len) target) := by
  obtain ⟨events, hinv⟩ := halike.order
  have htail := msgTail_ne_of_unused hinv hunused target
  have htail' : (k'.procTable target).msgTail ≠ some m := by
    rw [halike.eq_withPool]
    exact htail
  have hsame : queuedState k' target m type data' len =
      withPool (queuedState k target m type data len)
        (queuedState k' target m type data' len).msgPool := by
    conv_lhs => rw [halike.eq_withPool]
    conv_rhs => rw [halike.eq_withPool]
    exact queuedState_withPool k k'.msgPool target m type len data data'
  have hqueues := kernelQueues_queuedState target type data len hinv hunused
  have hqueued : Alike r (queuedState k target m type data len)
      (queuedState k' target m type data' len) := by
    refine ⟨halike.order.queued htarget hunused type data hlen, hsame, fun slot ↦ ?_,
      fun q hq slot hslot ↦ ?_⟩
    · rw [queuedState_msgPool k target m slot type data len htail,
        queuedState_msgPool k' target m slot type data' len htail']
      rw [show k'.procTable = k.procTable by rw [halike.eq_withPool, withPool_procTable]]
      split_ifs
      · rfl
      · rfl
      · exact halike.next_eq slot
    · rw [hqueues.eq_queueSlots] at hslot
      rw [pid_queuedState] at hq
      by_cases heq : slot = m
      · subst heq
        have hself : q = target := by
          by_contra hne
          rw [Function.update_of_ne hne] at hslot
          rw [(hinv.queues.used_iff slot).mpr ⟨q, hslot⟩] at hunused
          cases hunused
        have hdst : dst = r := by rw [← hq, hself, (procFind_some htarget).2]
        rw [queuedState_msgPool k target slot slot type data len htail,
          queuedState_msgPool k' target slot slot type data' len htail', if_pos rfl, if_pos rfl,
          show k'.currentPid = k.currentPid by rw [halike.eq_withPool]; rfl]
        exact heldMessage_filledMessage_of_bytes hlen (hcarries hdst) hnull (hbytes hdst)
      · have hold : slot ∈ queueSlots k q := by
          by_cases hself : q = target
          · rw [hself, Function.update_self] at hslot
            rw [hself]
            rcases List.mem_append.mp hslot with hmem | hmem
            · exact hmem
            · exact absurd (List.mem_singleton.mp hmem) heq
          · rwa [Function.update_of_ne hself] at hslot
        rw [heldMessage_queuedState_of_ne htail heq, heldMessage_queuedState_of_ne htail' heq]
        exact halike.held_eq q hq slot hold
  obtain ⟨events', hinv'⟩ := hqueued.order
  refine hqueued.kept (processesKept_procWakeup hinv'.pids.current target) ?_
  rw [← procWakeup_withPool, ← hsame]

/-- A send keeps the kernels alike. -/
theorem Alike.send (halike : Alike r k k') {dst : Pid} {type len : Word32}
    {data data' : Option (ℕ → Byte)} (hnull : data = none ↔ data' = none)
    (hbytes : dst = r → ∀ i < len.toNat, data.map (· i) = data'.map (· i))
    (hcarries : CarriesBytes r k (.send dst type data len)) :
    Alike r (ipcSend k dst type data len).2 (ipcSend k' dst type data' len).2 := by
  rcases ipcSend_withPool_cases k dst type len with ⟨-, hsame⟩ |
    ⟨target, m, htarget, hlen, hunused, hqueued⟩
  · rw [show (ipcSend k dst type data len).2 = k from hsame k.msgPool data, halike.eq_withPool,
      hsame, ← halike.eq_withPool]
    exact halike
  · have hfirst : (ipcSend k dst type data len).2 =
        procWakeup (queuedState k target m type data len) target := hqueued k.msgPool data
    have hsecond : (ipcSend k' dst type data' len).2 =
        procWakeup (queuedState k' target m type data' len) target := by
      rw [halike.eq_withPool]
      exact hqueued k'.msgPool data'
    rw [hfirst, hsecond]
    refine halike.queued htarget hlen hunused ?_ hnull hbytes
    rintro hdst hpos rfl
    have hzero := hcarries hdst (by rw [htarget]; exact Option.some_ne_none _) ⟨hlen, m, hunused⟩
    rw [hzero] at hpos
    exact absurd hpos (by decide)

/-- Unlinking the head of the caller's queue delivers `r` the same message and keeps the kernels
alike. -/
theorem Alike.dequeued (halike : Alike r k k') {current : ProcIndex} {m : MsgIndex}
    (out out' : IpcMessage) (hcurrent : k.currentProc = some current)
    (hhead : (k.procTable current).msgQueue = some m) :
    ((k.procTable current).pid = r → heldMessage (dequeue k current m out).1 =
        heldMessage (dequeue k' current m out').1) ∧
      Alike r (dequeue k current m out).2 (dequeue k' current m out').2 := by
  obtain ⟨events, hinv⟩ := halike.order
  obtain ⟨rest, hqueue⟩ := exists_queueSlots_cons hinv hhead
  constructor
  · intro hpid
    rw [dequeue_message, dequeue_message, heldMessage_receivedMessage,
      heldMessage_receivedMessage]
    exact (halike.held_eq current hpid m (hqueue ▸ List.mem_cons_self)).symm
  · have hnext : (dequeue k' current m out').2 =
        withPool (dequeue k current m out).2 k'.msgPool := by
      conv_lhs => rw [halike.eq_withPool]
      exact dequeue_withPool k k'.msgPool current m out out' (halike.next_eq m)
    refine halike.outside ⟨_, hinv.dequeued hcurrent hhead⟩ hnext
      (dequeue_frame k current m out).1 fun q hq slot hslot ↦ ?_
    rw [pid_dequeue] at hq
    rw [(kernelQueues_dequeue out hinv hqueue).eq_queueSlots] at hslot
    refine ⟨hq, ?_⟩
    by_cases hself : q = current
    · rw [hself, Function.update_self] at hslot
      rw [hself, hqueue]
      exact List.mem_cons_of_mem m hslot
    · rwa [Function.update_of_ne hself] at hslot

/-- A pass of a receive delivers `r` the same message and keeps the kernels alike. -/
theorem Alike.recv (halike : Alike r k k') {out out' : Option IpcMessage}
    (hnull : out = none ↔ out' = none) :
    (IpcCall.recv out).deliveredTo r k = (IpcCall.recv out').deliveredTo r k' ∧
      Alike r (ipcRecv k out).kernel (ipcRecv k' out').kernel := by
  have hcurrent' : k'.currentProc = k.currentProc := by
    rw [halike.eq_withPool, withPool_currentProc]
  have htable' : k'.procTable = k.procTable := by
    rw [halike.eq_withPool, withPool_procTable]
  cases hcurrent : k.currentProc with
  | none =>
    rw [hcurrent] at hcurrent'
    cases out <;> cases out' <;>
      simp only [IpcCall.deliveredTo, ipcRecv, hcurrent, hcurrent', RecvPass.kernel] <;>
      exact ⟨rfl, halike⟩
  | some current =>
    rw [hcurrent] at hcurrent'
    cases out with
    | none =>
      rw [hnull.mp rfl]
      simp only [IpcCall.deliveredTo, ipcRecv, hcurrent, hcurrent', RecvPass.kernel]
      exact ⟨rfl, halike⟩
    | some buffer =>
      obtain ⟨buffer', rfl⟩ :=
        Option.ne_none_iff_exists'.mp (hnull.not.mp (Option.some_ne_none buffer))
      cases hhead : (k.procTable current).msgQueue with
      | none =>
        have hhead' : (k'.procTable current).msgQueue = none := by rw [htable', hhead]
        simp only [IpcCall.deliveredTo, ipcRecv, hcurrent, hcurrent', hhead, hhead',
          RecvPass.kernel]
        obtain ⟨events, hinv⟩ := halike.order
        have hslept : procSleep k' 10#64 =
            (withPool (procSleep k 10#64).1 k'.msgPool, (procSleep k 10#64).2) := by
          conv_lhs => rw [halike.eq_withPool]
          exact procSleep_withPool k k'.msgPool 10#64
        refine ⟨trivial, halike.kept (processesKept_procSleep hinv.pids.current 10#64) ?_⟩
        rw [hslept]
      | some m =>
        have hhead' : (k'.procTable current).msgQueue = some m := by rw [htable', hhead]
        have hpid : ∀ k : Kernel, k.currentProc = some current →
            k.currentPid = (k.procTable current).pid := fun k hk ↦ by rw [Kernel.currentPid, hk]
        obtain ⟨hmessage, hnext⟩ := halike.dequeued buffer buffer' hcurrent hhead
        simp only [IpcCall.deliveredTo, ipcRecv, hcurrent, hcurrent', hhead, hhead',
          RecvPass.kernel, hpid k hcurrent, hpid k' hcurrent']
        rw [htable']
        refine ⟨?_, hnext⟩
        split_ifs with hr
        · rw [hmessage hr]
        · rfl

/-- A step keeps the kernels alike and delivers `r` the same message. -/
theorem Alike.step (halike : Alike r k k') {call call' : IpcCall} (hsame : SameFor r call call')
    (hcarries : CarriesBytes r k call) :
    call.deliveredTo r k = call'.deliveredTo r k' ∧
      Alike r (call.perform entryPoints k) (call'.perform entryPoints k') := by
  cases hsame with
  | send dst type len hnull hbytes => exact ⟨rfl, halike.send hnull hbytes hcarries⟩
  | recv hnull => exact halike.recv hnull
  | call kernelCall => exact ⟨rfl, halike.perform kernelCall⟩
  | resume p =>
    refine ⟨rfl, ?_⟩
    have hstate : (k'.procTable p).state = (k.procTable p).state := by
      rw [halike.eq_withPool, withPool_procTable]
    rw [IpcCall.perform, IpcCall.perform, hstate]
    split_ifs with hunused
    · exact halike
    · refine halike.kept ⟨rfl, rfl, rfl, fun _ ↦ rfl, fun _ ↦ Iff.rfl, fun i hi ↦ ?_⟩ ?_
      · cases hi
        exact hunused
      · conv_lhs => rw [halike.eq_withPool]
        rfl

/-! ### Runs -/

/-- Two runs of calls that differ only in payload bytes of messages not addressed to `r` give `r`
the same messages, when no send to `r` is admitted with a length and NULL data. -/
theorem payloads_confined {procIdle idleStack : Word} {shell : Option (ElfPages × Word)}
    {idle : ProcIndex} (hmain : kernelMain entryPoints procIdle idleStack shell = some (idle, k))
    {calls calls' : List IpcCall} (hsame : List.Forall₂ (SameFor r) calls calls')
    (hcarries : Along (fun k call ↦ call.perform entryPoints k) (CarriesBytes r) k calls) :
    received entryPoints r k calls = received entryPoints r k calls' := by
  have hstart : (ipcSystem entryPoints).start k := ⟨procIdle, idleStack, shell, idle, hmain⟩
  refine outputs_eq_of_related (fun _ _ _ _ halike hcall hcarry ↦ halike.step hcall hcarry) hsame
    (Alike.refl r ⟨[], IpcInvariant.start hstart⟩) hcarries

/-- Idle sends the second process a byte, which receives it and answers with NULL data. -/
def answeredCalls (secret : Byte) (data : Option (ℕ → Byte)) : List IpcCall :=
  [.call (.create 0xFFFF900000008018#64 [0x61#8] 5#64),
    .send 2 0#32 (some fun _ ↦ secret) 1#32,
    .call .yield,
    .recv (some IpcMessage.zero),
    .send 1 0#32 data 1#32,
    .call .yield,
    .recv (some IpcMessage.zero)]

theorem sameFor_answeredCalls (first second : Byte) (data : Option (ℕ → Byte)) :
    List.Forall₂ (SameFor 1) (answeredCalls first data) (answeredCalls second data) := by
  have hsecret : SameFor 1 (.send 2 0#32 (some fun _ ↦ first) 1#32)
      (.send 2 0#32 (some fun _ ↦ second) 1#32) :=
    SameFor.send 2 0#32 1#32 (by simp) fun hdst ↦ absurd hdst (by decide)
  have hanswer : SameFor 1 (.send 1 0#32 data 1#32) (.send 1 0#32 data 1#32) :=
    SameFor.send 1 0#32 1#32 Iff.rfl fun _ _ _ ↦ rfl
  have hrecv : SameFor 1 (.recv (some IpcMessage.zero)) (.recv (some IpcMessage.zero)) :=
    SameFor.recv Iff.rfl
  exact .cons (.call _) (.cons hsecret (.cons (.call _) (.cons hrecv (.cons hanswer
    (.cons (.call _) (.cons hrecv .nil))))))

/-- An answer that carries its byte is the same in both runs. -/
theorem payloads_confined_answer : ∃ k,
    kernelMain ⟨1#64, 2#64⟩ 3#64 0xFFFF900000000018#64 none = some (0, k) ∧
      received ⟨1#64, 2#64⟩ 1 k (answeredCalls 0xAA#8 (some fun _ ↦ 0x07#8)) =
        received ⟨1#64, 2#64⟩ 1 k (answeredCalls 0xBB#8 (some fun _ ↦ 0x07#8)) := by
  obtain ⟨k, hmain⟩ : ∃ k,
      kernelMain ⟨1#64, 2#64⟩ 3#64 0xFFFF900000000018#64 none = some (0, k) := ⟨_, rfl⟩
  refine ⟨k, hmain, payloads_confined hmain (sameFor_answeredCalls 0xAA#8 0xBB#8 _) ?_⟩
  exact ⟨trivial, trivial, trivial, trivial, trivial, trivial, trivial, trivial⟩

/-- An answer with NULL data hands idle the byte it sent the second process. -/
theorem stale_byte_leaked : ¬ ∀ entryPoints procIdle idleStack shell idle k r calls calls',
    kernelMain entryPoints procIdle idleStack shell = some (idle, k) →
      List.Forall₂ (SameFor r) calls calls' →
        received entryPoints r k calls = received entryPoints r k calls' := by
  intro hall
  obtain ⟨k, hmain, hfirst, hsecond⟩ : ∃ k,
      kernelMain ⟨1#64, 2#64⟩ 3#64 0xFFFF900000000018#64 none = some (0, k) ∧
        received ⟨1#64, 2#64⟩ 1 k (answeredCalls 0xAA#8 none) = [⟨2, 0#32, 1#32, [0xAA#8]⟩] ∧
        received ⟨1#64, 2#64⟩ 1 k (answeredCalls 0xBB#8 none) = [⟨2, 0#32, 1#32, [0xBB#8]⟩] :=
    ⟨_, rfl, by decide, by decide⟩
  have hsame := hall _ _ _ _ _ _ _ _ _ hmain (sameFor_answeredCalls 0xAA#8 0xBB#8 none)
  rw [hfirst, hsecond] at hsame
  exact absurd hsame (by decide)

end Colix.Ipc

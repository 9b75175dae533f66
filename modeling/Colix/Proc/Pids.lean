import Mathlib.Data.Finset.Card
import Mathlib.Data.Fintype.Card
import Colix.KernelCalls

/-!
# Process identifiers

No entry of the process table is ever released, so at most 64 pids are handed out and the counter
does not wrap: the pid of a process in use names that process and no other
(`PidInvariant.procFind_pid`).
-/

set_option autoImplicit false
set_option relaxedAutoImplicit false

namespace Colix.Proc

/-- The entries in use. -/
def entriesInUse (k : Kernel) : Finset ProcIndex :=
  Finset.univ.filter fun i ↦ (k.procTable i).state ≠ .unused

/-- Pids in use are positive, below the counter and distinct, and the counter counts them. -/
structure PidInvariant (k : Kernel) : Prop where
  current : CurrentInUse k
  pid_bounds : ∀ i, (k.procTable i).state ≠ .unused →
    1 ≤ (k.procTable i).pid.toInt ∧ (k.procTable i).pid.toInt < k.nextPid.toInt
  pid_inj : ∀ i j, (k.procTable i).state ≠ .unused → (k.procTable j).state ≠ .unused →
    (k.procTable i).pid = (k.procTable j).pid → i = j
  nextPid_eq : k.nextPid.toInt = (entriesInUse k).card + 1

variable {k next : Kernel}

/-- What `proc_find` finds is a process in use with that pid. -/
theorem procFind_some {pid : Pid} {p : ProcIndex} (hfind : procFind k pid = some p) :
    (k.procTable p).state ≠ .unused ∧ (k.procTable p).pid = pid := by
  simpa using List.find?_some hfind

/-- `proc_find` finds a process in use by its pid. -/
theorem PidInvariant.procFind_pid (hpids : PidInvariant k) {p : ProcIndex}
    (hused : (k.procTable p).state ≠ .unused) : procFind k (k.procTable p).pid = some p := by
  cases hfind : procFind k (k.procTable p).pid with
  | none =>
    have hreject := List.find?_eq_none.mp hfind p (List.mem_finRange p)
    simp [hused] at hreject
  | some q =>
    obtain ⟨hq, hpid⟩ := procFind_some hfind
    rw [hpids.pid_inj q p hq hused hpid]

theorem PidInvariant.init : PidInvariant (procInit Kernel.bss) where
  current := fun _ h ↦ by cases h
  pid_bounds := fun _ h ↦ absurd rfl h
  pid_inj := fun _ _ h ↦ absurd rfl h
  nextPid_eq := by
    have hempty : entriesInUse (procInit Kernel.bss) = ∅ := by
      refine Finset.filter_eq_empty_iff.mpr fun i _ ↦ ?_
      exact not_not.mpr rfl
    rw [hempty]
    rfl

/-- The invariant depends on the pids, the entries in use, the counter and the current process. -/
theorem PidInvariant.congr (hpids : PidInvariant k)
    (hpid : ∀ i, (next.procTable i).pid = (k.procTable i).pid)
    (hunused : ∀ i, (next.procTable i).state = .unused ↔ (k.procTable i).state = .unused)
    (hnext : next.nextPid = k.nextPid) (hcurrent : CurrentInUse next) : PidInvariant next where
  current := hcurrent
  pid_bounds i hi := by
    rw [hpid, hnext]
    exact hpids.pid_bounds i ((hunused i).not.mp hi)
  pid_inj i j hi hj heq := by
    rw [hpid, hpid] at heq
    exact hpids.pid_inj i j ((hunused i).not.mp hi) ((hunused j).not.mp hj) heq
  nextPid_eq := by
    have hsame : entriesInUse next = entriesInUse k :=
      Finset.filter_congr fun i _ ↦ (hunused i).not
    rw [hnext, hpids.nextPid_eq, hsame]

theorem PidInvariant.kept (hpids : PidInvariant k) (hkept : ProcessesKept k next) :
    PidInvariant next :=
  hpids.congr hkept.pid_eq hkept.unused_iff hkept.nextPid_eq hkept.current

/-- The entries in use after one is added. -/
theorem entriesInUse_added {p : ProcIndex} (hadded : ProcessAdded k next p) :
    entriesInUse next = insert p (entriesInUse k) := by
  ext i
  simp only [entriesInUse, Finset.mem_filter, Finset.mem_univ, true_and, Finset.mem_insert]
  by_cases heq : i = p
  · simp [heq, hadded.used_after]
  · simp [heq, hadded.procTable_of_ne i heq]

/-- The counter does not wrap when a process is added. -/
theorem PidInvariant.toInt_nextPid (hpids : PidInvariant k) {p : ProcIndex}
    (hadded : ProcessAdded k next p) : next.nextPid.toInt = k.nextPid.toInt + 1 := by
  have hcard : (entriesInUse k).card ≤ 64 := by
    simpa using Finset.card_le_univ (entriesInUse k)
  have hnext := hpids.nextPid_eq
  rw [hadded.nextPid_eq, Int32.toInt_add, show (1 : Int32).toInt = 1 from rfl]
  exact Int.bmod_eq_of_le (by omega) (by omega)

/-- The pid of a new process is not in use. -/
theorem PidInvariant.pid_ne_nextPid (hpids : PidInvariant k) {i : ProcIndex}
    (hused : (k.procTable i).state ≠ .unused) : (k.procTable i).pid ≠ k.nextPid := by
  intro heq
  have hlt := (hpids.pid_bounds i hused).2
  rw [heq] at hlt
  omega

theorem PidInvariant.added (hpids : PidInvariant k) {p : ProcIndex}
    (hadded : ProcessAdded k next p) : PidInvariant next := by
  have hnext := hpids.toInt_nextPid hadded
  have hcount := hpids.nextPid_eq
  have hbefore : ∀ i, i ≠ p → (next.procTable i).state ≠ .unused →
      (k.procTable i).state ≠ .unused := by
    intro i hne hi
    rwa [hadded.procTable_of_ne i hne] at hi
  refine ⟨fun i hi ↦ ?_, fun i hi ↦ ?_, fun i j hi hj heq ↦ ?_, ?_⟩
  · rw [hadded.currentProc_eq] at hi
    by_cases heq : i = p
    · rw [heq, hadded.used_after]
      exact fun h ↦ ProcState.noConfusion h
    · rw [hadded.procTable_of_ne i heq]
      exact hpids.current i hi
  · by_cases hp : i = p
    · rw [hp, hadded.pid_added]
      omega
    · have hbounds := hpids.pid_bounds i (hbefore i hp hi)
      rw [hadded.procTable_of_ne i hp]
      omega
  · by_cases hip : i = p
    · by_cases hjp : j = p
      · rw [hip, hjp]
      · rw [hip, hadded.pid_added, hadded.procTable_of_ne j hjp] at heq
        exact absurd heq.symm (hpids.pid_ne_nextPid (hbefore j hjp hj))
    · by_cases hjp : j = p
      · rw [hjp, hadded.pid_added, hadded.procTable_of_ne i hip] at heq
        exact absurd heq (hpids.pid_ne_nextPid (hbefore i hip hi))
      · rw [hadded.procTable_of_ne i hip, hadded.procTable_of_ne j hjp] at heq
        exact hpids.pid_inj i j (hbefore i hip hi) (hbefore j hjp hj) heq
  · have hnotMem : p ∉ entriesInUse k := by
      simp [entriesInUse, hadded.unused_before]
    rw [hnext, hcount, entriesInUse_added hadded, Finset.card_insert_of_notMem hnotMem]
    push_cast
    rfl

end Colix.Proc

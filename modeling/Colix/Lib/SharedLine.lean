import Mathlib.Data.Fintype.Card
import Mathlib.Data.Finset.Card
import Colix.Lib.Console

/-!
# The serial line under preemption

Kernel processes print with interrupts enabled, so a process may be switched away between the wait
of `serial_putc` and its store, and others print in between. Here the driver is executed by several
processes at once, in every interleaving of their statements with each other and with the
transmitter.

`shared_line` says what is left of the line then: every process's bytes are stored in their order,
and no byte is lost in any interleaving exactly when the transmitter has room for as many bytes as
there are processes, because each may have a wait behind it that all the others' stores come after.
The screen is left out.
-/

set_option autoImplicit false
set_option relaxedAutoImplicit false

namespace Colix.Lib

open Foundation

/-! ### The system -/

/-- The driver as each process executes it, and the transmitter. `stored` are the bytes stored so
far, with who stored them. -/
structure SharedConsole (ι : Type) where
  code : ι → List ConsoleStatement
  uart : Uart
  stored : List (ι × Byte)

/-- A statement of a process, a byte sent, or a change of the line status that is not about the
transmitter. -/
inductive SharedEvent (ι : Type)
  | driver (i : ι)
  | transmit
  | status (bits : Byte)

section System

variable {ι : Type} [DecidableEq ι]

/-- The process has executed a statement. -/
def SharedConsole.advance (s : SharedConsole ι) (i : ι) (code : List ConsoleStatement) :
    SharedConsole ι :=
  { s with code := Function.update s.code i code }

/-- A statement of a process. -/
def SharedConsole.drive (s : SharedConsole ι) (i : ι) : Option (SharedConsole ι) :=
  match s.code i with
  | [] => none
  | .awaitReady :: code => some (if serialReady s.uart then s.advance i code else s)
  | .store c :: code =>
    some { s.advance i code with uart := s.uart.store c, stored := s.stored ++ [(i, c)] }
  | .vgaPutc _ :: code => some (s.advance i code)

/-- A step. -/
def SharedConsole.next (s : SharedConsole ι) : SharedEvent ι → Option (SharedConsole ι)
  | .driver i => s.drive i
  | .transmit =>
    match s.uart.held with
    | [] => none
    | c :: held => some { s with uart := { s.uart with held := held, sent := s.uart.sent ++ [c] } }
  | .status bits => some { s with uart := { s.uart with status := bits } }

/-- The processes before the first statement of what they print. -/
def SharedConsole.begin (prints : ι → List Event) (uart : Uart) : SharedConsole ι where
  code i := consoleCode (prints i)
  uart := uart
  stored := []

/-- The runs of processes that print. -/
def sharedSystem (prints : ι → List Event) (uart : Uart) :
    TransitionSystem (SharedConsole ι) (SharedEvent ι) :=
  .ofFunction (fun s ↦ s = .begin prints uart) SharedConsole.next

/-- The bytes a process has stored. -/
def storedBy (i : ι) (stored : List (ι × Byte)) : List Byte :=
  (stored.filter fun byte ↦ byte.1 = i).map Prod.snd

/-- Every byte stored has been sent or is held. -/
def SharedConsole.Lossless (s : SharedConsole ι) (before : List Byte) : Prop :=
  s.uart.sent ++ s.uart.held = before ++ s.stored.map Prod.snd

/-- The process's next statement is a store: it has waited. -/
def Waited : List ConsoleStatement → Bool
  | .store _ :: _ => true
  | _ => false

end System

/-! ### Each process's bytes -/

section Order

variable {ι : Type} [DecidableEq ι] {s next : SharedConsole ι} {i : ι} {c : Byte}
  {code rest : List ConsoleStatement}

theorem storedBy_append (i : ι) (stored more : List (ι × Byte)) :
    storedBy i (stored ++ more) = storedBy i stored ++ storedBy i more := by
  rw [storedBy, List.filter_append, List.map_append, ← storedBy, ← storedBy]

/-- What a process has stored and what it is still to store. -/
def SharedConsole.output (s : SharedConsole ι) (i : ι) : List Byte :=
  storedBy i s.stored ++ storedBytes (s.code i)

/-- A process's statement that stores nothing. -/
theorem output_advance (hcode : storedBytes (s.code i) = storedBytes code) (j : ι) :
    (s.advance i code).output j = s.output j := by
  rw [SharedConsole.output, SharedConsole.output]
  congr 1
  by_cases heq : j = i
  · rw [heq, hcode]
    exact congrArg storedBytes (Function.update_self ..)
  · exact congrArg storedBytes (Function.update_of_ne heq ..)

/-- Every step leaves what each process stores in all. -/
theorem output_step {event : SharedEvent ι} (hstep : s.next event = some next) (j : ι) :
    next.output j = s.output j := by
  cases event with
  | driver i =>
    replace hstep : s.drive i = some next := hstep
    rw [SharedConsole.drive] at hstep
    rcases hcode : s.code i with _ | ⟨_ | c | c, code⟩
    · rw [hcode] at hstep
      cases hstep
    · rw [hcode] at hstep
      obtain rfl := Option.some.inj hstep
      split_ifs
      · refine output_advance ?_ j
        rw [hcode]
        rfl
      · rfl
    · rw [hcode] at hstep
      obtain rfl := Option.some.inj hstep
      rw [SharedConsole.output, SharedConsole.output]
      dsimp only [SharedConsole.advance]
      rw [storedBy_append, List.append_assoc]
      congr 1
      by_cases heq : j = i
      · rw [heq, Function.update_self, hcode]
        simp [storedBy, storedBytes]
      · rw [Function.update_of_ne heq]
        simp [storedBy, Ne.symm heq]
    · rw [hcode] at hstep
      obtain rfl := Option.some.inj hstep
      refine output_advance ?_ j
      rw [hcode]
      rfl
  | transmit =>
    rw [SharedConsole.next] at hstep
    split at hstep
    · cases hstep
    · obtain rfl := Option.some.inj hstep
      rfl
  | status bits =>
    obtain rfl := Option.some.inj hstep
    rfl

end Order

/-! ### Enough room -/

theorem Guarded.of_waited {code : List ConsoleStatement} (hguarded : Guarded true code) :
    Guarded (Waited code) code := by
  rcases code with _ | ⟨_ | c | c, code⟩
  · trivial
  · exact hguarded
  · exact hguarded
  · exact hguarded

theorem Guarded.not_waited {code : List ConsoleStatement} (hguarded : Guarded false code) :
    Waited code = false := by
  rcases code with _ | ⟨_ | c | c, code⟩
  · rfl
  · rfl
  · exact absurd hguarded.1 Bool.noConfusion
  · rfl

section Codes

variable {ι : Type} [DecidableEq ι] {s : SharedConsole ι} {i : ι} {code : List ConsoleStatement}

/-- The codes of all stay guarded. -/
theorem guarded_advance (hguarded : ∀ j, Guarded (Waited (s.code j)) (s.code j))
    (hcode : Guarded (Waited code) code) (j : ι) :
    Guarded (Waited ((s.advance i code).code j)) ((s.advance i code).code j) := by
  by_cases heq : j = i
  · have hself : (s.advance i code).code j = code := heq ▸ Function.update_self ..
    rwa [hself]
  · have hother : (s.advance i code).code j = s.code j := Function.update_of_ne heq ..
    rw [hother]
    exact hguarded j

end Codes

section Room

variable {ι : Type} [DecidableEq ι] [Fintype ι] {s next : SharedConsole ι} {i : ι}
  {code : List ConsoleStatement} {before : List Byte}

/-- The processes that have a wait behind them and a store before them. -/
def SharedConsole.waiting (s : SharedConsole ι) : Finset ι :=
  Finset.univ.filter fun i ↦ Waited (s.code i) = true

/-- The transmitter holds no more bytes than there are processes that are not about to store. -/
structure SharedInvariant (before : List Byte) (s : SharedConsole ι) : Prop where
  room_le : Fintype.card ι ≤ s.uart.room
  guarded : ∀ i, Guarded (Waited (s.code i)) (s.code i)
  count_le : s.uart.held.length + s.waiting.card ≤ Fintype.card ι
  lossless : s.Lossless before

/-- A process goes on to code that does not start with a store. -/
theorem waiting_advance (hwaited : Waited code = false) :
    (s.advance i code).waiting = s.waiting.erase i := by
  ext j
  rw [Finset.mem_erase, SharedConsole.waiting, SharedConsole.waiting, Finset.mem_filter,
    Finset.mem_filter]
  by_cases heq : j = i
  · rw [heq]
    have hself : (s.advance i code).code i = code := Function.update_self ..
    rw [hself, hwaited]
    simp
  · have hother : (s.advance i code).code j = s.code j := Function.update_of_ne heq ..
    rw [hother]
    simp [heq]

/-- A statement of a process keeps the invariant. -/
theorem SharedInvariant.drive (hinv : SharedInvariant before s) (hdrive : s.drive i = some next) :
    SharedInvariant before next := by
  obtain ⟨hroom, hguarded, hcount, hlossless⟩ := hinv
  have hown := hguarded i
  rw [SharedConsole.drive] at hdrive
  rcases hcode : s.code i with _ | ⟨_ | c | c, code⟩
  · rw [hcode] at hdrive
    cases hdrive
  · rw [hcode] at hdrive hown
    obtain rfl := Option.some.inj hdrive
    split_ifs with hready
    · -- nothing is held, and not all can be about to store what is not held
      have hheld : (s.advance i code).uart.held = [] := (serialReady_iff s.uart).mp hready
      refine ⟨hroom, guarded_advance hguarded (Guarded.of_waited hown), ?_, hlossless⟩
      rw [hheld, List.length_nil, Nat.zero_add]
      exact Finset.card_le_univ _
    · exact ⟨hroom, hguarded, hcount, hlossless⟩
  · rw [hcode] at hdrive hown
    obtain rfl := Option.some.inj hdrive
    obtain ⟨-, hrest⟩ := hown
    have hmem : i ∈ s.waiting := by
      rw [SharedConsole.waiting, Finset.mem_filter, hcode]
      exact ⟨Finset.mem_univ i, rfl⟩
    have hpositive := Finset.card_pos.mpr ⟨i, hmem⟩
    have hfits : s.uart.held.length < s.uart.room := by omega
    have hstore : s.uart.store c = { s.uart with held := s.uart.held ++ [c] } := by
      rw [Uart.store, if_pos hfits]
    have hwaiting : SharedConsole.waiting { s.advance i code with
        uart := s.uart.store c, stored := s.stored ++ [(i, c)] } = s.waiting.erase i :=
      waiting_advance hrest.not_waited
    refine ⟨?_, guarded_advance hguarded hrest.weaken, ?_, ?_⟩
    · rw [hstore]
      exact hroom
    · rw [hwaiting, Finset.card_erase_of_mem hmem, hstore, List.length_append,
        List.length_singleton]
      omega
    · rw [SharedConsole.Lossless] at hlossless ⊢
      dsimp only
      rw [hstore, List.map_append, ← List.append_assoc, ← List.append_assoc, hlossless]
      rfl
  · rw [hcode] at hdrive hown
    obtain rfl := Option.some.inj hdrive
    have hrest : Guarded false code := hown
    refine ⟨hroom, guarded_advance hguarded hrest.weaken, ?_, hlossless⟩
    rw [waiting_advance hrest.not_waited]
    exact (Nat.add_le_add_left (Finset.card_erase_le) _).trans hcount

/-- Every step keeps the invariant. -/
theorem SharedInvariant.step (hinv : SharedInvariant before s) {event : SharedEvent ι}
    (hstep : s.next event = some next) : SharedInvariant before next := by
  cases event with
  | driver i => exact hinv.drive hstep
  | transmit =>
    obtain ⟨hroom, hguarded, hcount, hlossless⟩ := hinv
    rw [SharedConsole.next] at hstep
    cases hheld : s.uart.held with
    | nil => simp [hheld] at hstep
    | cons c held =>
      simp only [hheld, Option.some.injEq] at hstep
      subst hstep
      rw [hheld, List.length_cons] at hcount
      refine ⟨hroom, hguarded, ?_, ?_⟩
      · change held.length + s.waiting.card ≤ Fintype.card ι
        omega
      · rw [SharedConsole.Lossless, hheld] at hlossless
        rw [SharedConsole.Lossless, ← hlossless]
        simp
  | status bits =>
    obtain rfl := Option.some.inj hstep
    exact ⟨hinv.room_le, hinv.guarded, hinv.count_le, hinv.lossless⟩

end Room

/-! ### Too little room -/

section Losing

variable {ι : Type} [DecidableEq ι] (begins : SharedConsole ι → Prop) (start : SharedConsole ι)
  {l : List ι}

/-- With nothing held, every process of a list passes its wait. -/
theorem path_wait (hheld : start.uart.held = []) (hstored : start.stored = [])
    (hwait : ∀ i, (start.code i).head? = some .awaitReady) (hnodup : l.Nodup) :
    ∃ s, (TransitionSystem.ofFunction begins SharedConsole.next).Path start
        (l.map .driver) s ∧ s.uart = start.uart ∧ s.stored = [] ∧
      ∀ i, s.code i = if i ∈ l then (start.code i).tail else start.code i := by
  induction l using List.reverseRecOn with
  | nil => exact ⟨start, .refl start, rfl, hstored, fun i ↦ by simp⟩
  | append_singleton l i ih =>
    obtain ⟨hl, -, hnew⟩ := List.nodup_append.mp hnodup
    have hnot : i ∉ l := fun hmem ↦ hnew i hmem i List.mem_cons_self rfl
    obtain ⟨s, hpath, huart, hempty, hcode⟩ := ih hl
    have hwaits : s.code i = .awaitReady :: (start.code i).tail := by
      rw [hcode i, if_neg hnot]
      exact (List.cons_head?_tail (hwait i)).symm
    have hready : serialReady s.uart = true := by
      rw [serialReady_iff, huart, hheld]
    have hstep : s.next (.driver i) = some (s.advance i (start.code i).tail) := by
      rw [SharedConsole.next, SharedConsole.drive, hwaits]
      exact congrArg some (if_pos hready)
    refine ⟨s.advance i (start.code i).tail, ?_, huart, hempty, fun j ↦ ?_⟩
    · rw [List.map_append]
      exact hpath.step hstep
    · by_cases heq : j = i
      · rw [heq, if_pos (List.mem_append_right _ List.mem_cons_self)]
        exact Function.update_self ..
      · have hmem : j ∈ l ++ [i] ↔ j ∈ l := by simp [heq]
        have hother : (s.advance i (start.code i).tail).code j = s.code j :=
          Function.update_of_ne heq ..
        simp only [hmem, hother, hcode j]

/-- Processes that have all waited store one after another, and the transmitter keeps what it has
room for. -/
theorem path_store (hstored : start.stored = [])
    (hstore : ∀ i, ∃ c rest, start.code i = .store c :: rest) (hheld : start.uart.held = [])
    (hnodup : l.Nodup) :
    ∃ s, (TransitionSystem.ofFunction begins SharedConsole.next).Path start
        (l.map .driver) s ∧ s.uart.room = start.uart.room ∧ s.uart.sent = start.uart.sent ∧
      s.uart.held.length = min start.uart.room l.length ∧ s.stored.length = l.length ∧
      ∀ i, i ∉ l → s.code i = start.code i := by
  induction l using List.reverseRecOn with
  | nil =>
    refine ⟨start, .refl start, rfl, rfl, ?_, ?_, fun _ _ ↦ rfl⟩
    · rw [hheld]
      exact (Nat.min_zero _).symm
    · rw [hstored]
      rfl
  | append_singleton l i ih =>
    obtain ⟨hl, -, hnew⟩ := List.nodup_append.mp hnodup
    have hnot : i ∉ l := fun hmem ↦ hnew i hmem i List.mem_cons_self rfl
    obtain ⟨s, hpath, hroom, hsent, hlength, hcount, hcode⟩ := ih hl
    obtain ⟨c, rest, hnext⟩ := hstore i
    have hstep : s.next (.driver i) = some { s.advance i rest with
        uart := s.uart.store c, stored := s.stored ++ [(i, c)] } := by
      rw [SharedConsole.next, SharedConsole.drive, hcode i hnot, hnext]
    have hkept : (s.uart.store c).room = s.uart.room ∧ (s.uart.store c).sent = s.uart.sent := by
      rw [Uart.store]
      split_ifs <;> exact ⟨rfl, rfl⟩
    refine ⟨{ s.advance i rest with uart := s.uart.store c, stored := s.stored ++ [(i, c)] }, ?_,
      hkept.1.trans hroom, hkept.2.trans hsent, ?_, ?_, fun j hj ↦ ?_⟩
    · rw [List.map_append]
      exact hpath.step hstep
    · dsimp only
      rw [Uart.store, List.length_append, List.length_singleton]
      split_ifs with hfits
      · rw [List.length_append, List.length_singleton, hlength]
        omega
      · omega
    · rw [List.length_append, List.length_append, hcount]
      rfl
    · rw [List.mem_append, List.mem_singleton, not_or] at hj
      exact (Function.update_of_ne hj.2 ..).trans (hcode j hj.1)

end Losing

/-! ### Every interleaving -/

section Result

variable {ι : Type} [DecidableEq ι] [Fintype ι] {prints : ι → List Event} {uart : Uart}

/-- Code that starts with a wait goes on with the store. -/
theorem consoleCode_store {events : List Event}
    (hwait : (consoleCode events).head? = some .awaitReady) :
    ∃ c rest, (consoleCode events).tail = .store c :: rest := by
  induction events with
  | nil => cases hwait
  | cons event events ih =>
    cases event with
    | serialPutc c => exact ⟨c, _, rfl⟩
    | vgaPutc c => cases hwait
    | format | text | buffer => exact ih hwait

/-- Processes that all print, each with something for the line first, in any interleaving of their
statements: every process's bytes are stored in their order, and no byte is lost, whatever the
interleaving, exactly when the transmitter has room for a byte of each. Assumes: the transmitter is
empty at the start. -/
theorem shared_line (hheld : uart.held = [])
    (hwait : ∀ i, (consoleCode (prints i)).head? = some .awaitReady) :
    (∀ events s, (sharedSystem prints uart).Run events s → ∀ i,
      storedBy i s.stored ++ storedBytes (s.code i) = lineText (serialText (prints i))) ∧
    ((∀ events s, (sharedSystem prints uart).Run events s → s.Lossless uart.sent) ↔
      Fintype.card ι ≤ uart.room) := by
  refine ⟨fun events s hrun i ↦ ?_, fun hall ↦ ?_, fun hroom events s hrun ↦ ?_⟩
  · refine hrun.invariant (motive := fun s ↦ s.output i = lineText (serialText (prints i))) ?_ ?_
    · rintro s rfl
      exact storedBytes_consoleCode (prints i)
    · exact fun s event next hkept hstep ↦ (output_step hstep i).trans hkept
  · -- all wait, then all store
    have hnodup : (Finset.univ : Finset ι).toList.Nodup := Finset.nodup_toList _
    have hmem : ∀ i, i ∈ (Finset.univ : Finset ι).toList := fun i ↦ by simp
    obtain ⟨middle, hwaited, huart, hnone, hcode⟩ :=
      path_wait (fun s ↦ s = .begin prints uart) (.begin prints uart) hheld rfl hwait hnodup
    have hstore : ∀ i, ∃ c rest, middle.code i = .store c :: rest := by
      intro i
      rw [hcode i, if_pos (hmem i)]
      exact consoleCode_store (hwait i)
    obtain ⟨last, hstored, -, hsent, hlength, hcount, -⟩ :=
      path_store (fun s ↦ s = .begin prints uart) middle hnone hstore
        ((congrArg Uart.held huart).trans hheld) hnodup
    have hlossless := hall _ last ⟨_, rfl, hwaited.trans hstored⟩
    have hlengths := congrArg List.length hlossless
    rw [hsent, List.length_append, List.length_append, List.length_map, hlength, hcount, huart,
      Finset.length_toList, Finset.card_univ] at hlengths
    change uart.sent.length + min uart.room (Fintype.card ι) = _ at hlengths
    omega
  · have hinv : SharedInvariant uart.sent s := by
      refine hrun.invariant ?_ ?_
      · rintro s rfl
        refine ⟨hroom, fun i ↦ (guarded_consoleCode (prints i)).weaken, ?_, ?_⟩
        · have hlength : (SharedConsole.begin prints uart).uart.held.length = 0 :=
            congrArg List.length hheld
          rw [hlength, Nat.zero_add]
          exact Finset.card_le_univ _
        · change uart.sent ++ uart.held = uart.sent ++ []
          rw [hheld]
      · intro s event next hinv hstep
        replace hstep : s.next event = some next := hstep
        exact hinv.step hstep
    exact hinv.lossless

/-- Two processes with a byte each. -/
def twoPrints (i : Fin 2) : List Event :=
  if i = 0 then [.serialPutc (ascii 'a'), .vgaPutc (ascii 'a')]
  else [.serialPutc (ascii 'b'), .vgaPutc (ascii 'b')]

/-- A transmitter with nothing to send. -/
def idleUart (room : ℕ) : Uart := ⟨room, [], [], 0#8⟩

/-- A transmitter with a queue of sixteen loses nothing, one with a single register does. -/
theorem shared_line_two :
    (∀ events s, (sharedSystem twoPrints (idleUart 16)).Run events s → s.Lossless []) ∧
      ¬ ∀ events s, (sharedSystem twoPrints (idleUart 1)).Run events s → s.Lossless [] := by
  have hwait : ∀ i, (consoleCode (twoPrints i)).head? = some .awaitReady := by decide
  have hline := fun (uart : Uart) (hheld : uart.held = []) ↦ shared_line hheld hwait
  have hqueue := (hline (idleUart 16) rfl).2
  have hsingle := (hline (idleUart 1) rfl).2
  exact ⟨hqueue.mpr (by decide), fun hall ↦ absurd (hsingle.mp hall) (by decide)⟩

end Result

end Colix.Lib

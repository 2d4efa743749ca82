import Mos6502.LinearDisassembly
import Mos6502.OperandText
import Mos6502.Parsing.Columns
import Mos6502.Tracing

/-!
# The trace, read back

A line of the trace has fixed columns, since no text of an instruction is longer than its
column. So the lines of a traced run can be read back, and they give for each instruction
that was executed, in order, its address, its opcode, its text, the registers and flags
before it and the cycle counter after its opcode fetch.
-/

namespace Mos6502

open Effects Parsing

/-! ### Lines -/

/-- What a line of the trace says. -/
structure TraceRecord where
  pc : U16
  opcode : U8
  text : String
  a : U8
  x : U8
  y : U8
  p : U8
  s : U8
  cycles : ℕ
  deriving DecidableEq, Repr

/-- A line of the trace, taken apart by its columns. -/
def readTraceLine (line : String) : Option TraceRecord :=
  match columns [4, 2, 2, 2, 12, 3, 2, 3, 2, 3, 2, 3, 2, 4, 2, 5] line.toList with
  | [pc, _, opcode, _, text, _, a, _, x, _, y, _, p, _, s, _, cycles] =>
    some {
      pc := readDigits 16 pc
      opcode := readDigits 8 opcode
      text := String.ofList (text.rdropWhile (· = ' '))
      a := readDigits 8 a
      x := readDigits 8 x
      y := readDigits 8 y
      p := readDigits 8 p
      s := readDigits 8 s
      cycles := Nat.ofDigitChars 10 cycles 0 }
  | _ => none

/-- A text that its column in the trace holds. -/
structure FitsColumn (text : String) : Prop where
  length : text.toList.length ≤ 12
  last : ∀ hne : text.toList ≠ [], text.toList.getLast hne ≠ ' '

theorem FitsColumn.length_padded {text : String} (h : FitsColumn text) :
    (padded text).toList.length = 12 := by
  have hlength := h.length
  rw [padded, String.toList_ofList, List.rightpad, List.length_append, List.length_replicate]
  omega

theorem FitsColumn.read_padded {text : String} (h : FitsColumn text) :
    String.ofList ((padded text).toList.rdropWhile (· = ' ')) = text := by
  rw [padded, String.toList_ofList, rdropWhile_rightpad h.last, String.ofList_toList]

/-- **Round trip.** -/
theorem readTraceLine_traceLine {text : String} (h : FitsColumn text) (pc : U16) (opcode : U8)
    (c : Cpu) :
    readTraceLine (traceLine pc opcode text c) = some {
      pc
      opcode
      text
      a := c.regs.a
      x := c.regs.x
      y := c.regs.y
      p := c.regs.pack false
      s := c.regs.s
      cycles := c.cycles.toNat } := by
  let parts : List (List Char) := [(hexWord pc).toList, [' ', ' '], (hexByte opcode).toList,
    [' ', ' '], (padded text).toList, [' ', 'A', ':'], (hexByte c.regs.a).toList,
    [' ', 'X', ':'], (hexByte c.regs.x).toList, [' ', 'Y', ':'], (hexByte c.regs.y).toList,
    [' ', 'P', ':'], (hexByte (c.regs.pack false)).toList, [' ', 'S', 'P', ':'],
    (hexByte c.regs.s).toList, [' ', 'C', 'Y', 'C', ':']]
  have hlengths : parts.map List.length = [4, 2, 2, 2, 12, 3, 2, 3, 2, 3, 2, 3, 2, 4, 2, 5] := by
    simp only [parts, List.map_cons, List.map_nil, length_hexWord, length_hexByte,
      h.length_padded, List.length_cons, List.length_nil]
  have hline : (traceLine pc opcode text c).toList =
      parts.flatten ++ (toString c.cycles.toNat).toList := by
    simp [traceLine, parts, String.toList_append]
  have hcycles : Nat.ofDigitChars 10 (toString c.cycles.toNat).toList 0 = c.cycles.toNat := by
    rw [Nat.toString_eq_repr, Nat.repr_eq_ofList_toDigits, String.toList_ofList,
      Nat.ofDigitChars_ten_toDigits]
  rw [readTraceLine, hline, ← hlengths, columns_flatten]
  simp only [parts, List.cons_append, List.nil_append, readDigits_hexWord, readDigits_hexByte,
    h.read_padded, hcycles]

/-! ### Texts of instructions -/

theorem length_mnemonic (op : U8) : (row op).mnemonic.toList.length = 3 :=
  row_of_all (P := fun r => r.mnemonic.toList.length = 3) (by decide +kernel) op

/-- An operand is at most seven characters long, and none of them is a blank. -/
theorem operandText_fits (mode : Mode) (pc : U16) (lo hi : U8) :
    (operandText mode pc lo hi).toList.length ≤ 7 ∧ ' ' ∉ (operandText mode pc lo hi).toList := by
  have hblank : isHexDigit ' ' ≠ true := by decide
  have hbyte (b : U8) : ' ' ∉ (hexByte b).toList := fun h => hblank (isHexDigit_hexByte b _ h)
  have hword (w : U16) : ' ' ∉ (hexWord w).toList := fun h => hblank (isHexDigit_hexWord w _ h)
  cases mode <;> simp [operandText, hbyte, hword, length_hexByte, length_hexWord]

/-- The text of an instruction fits its column. -/
theorem fitsColumn_disassembleMemory (mem : Memory) (pc : U16) :
    FitsColumn (disassembleMemory mem pc).1 := by
  have hmnemonic := mnemonic_ne_blank (mem pc)
  obtain ⟨hlength, hblanks⟩ :=
    operandText_fits (instr (mem pc)).mode pc (mem (pc + 1)) (mem (pc + 2))
  have hthree := length_mnemonic (mem pc)
  rw [disassembleMemory_text]
  simp only
  split
  · refine ⟨by omega, fun hne => ?_⟩
    simpa using hmnemonic _ (List.getLast_mem hne)
  · next hempty =>
    have hne : (operandText (instr (mem pc)).mode pc (mem (pc + 1)) (mem (pc + 2))).toList ≠ [] :=
      fun h => hempty (String.toList_inj.mp h)
    refine ⟨?_, fun _ => ?_⟩
    · simp only [String.toList_append, List.length_append, hthree]
      have hblank : " ".toList.length = 1 := rfl
      omega
    · simp only [String.toList_append, List.append_assoc]
      rw [List.getLast_append_of_ne_nil (by simp) (by simp), List.getLast_append_of_ne_nil _ hne]
      exact fun hlast => hblanks (hlast ▸ List.getLast_mem hne)

namespace Machine

variable {β : Type} [BusLike β]

/-! ### Steps -/

/-- What a read of the bus at an address would find. -/
def viewed (b : β) : Memory := fun addr => (BusLike.read b addr).value

/-- What the trace says of the step, if it executes an instruction. -/
def traceRecord? (m : Machine β NullHooks) : Option TraceRecord :=
  match m.stepKind with
  | .instruction op => some {
      pc := m.cpu.regs.pc
      opcode := op
      text := (disassembleMemory (viewed (m.exec Policy.fetch).2.bus) m.cpu.regs.pc).1
      a := m.cpu.regs.a
      x := m.cpu.regs.x
      y := m.cpu.regs.y
      p := m.cpu.regs.pack false
      s := m.cpu.regs.s
      cycles := (m.cpu.cycles + 1).toNat }
  | _ => none

/-- A quiet peek gives what the bus shows there and changes nothing. -/
theorem peekBus_of_quiet {m : Machine β TracingHooks} {addr : U16}
    (h : ReadsQuietly m.bus addr) : peekBus addr m = (viewed m.bus addr, m) := by
  obtain ⟨hbus, hcalls⟩ := h
  simp only [peekBus, absorb, hbus, hcalls, Pins.calls_nil, viewed]

/-- With quiet peeks the tracer disassembles what the bus shows. -/
theorem disassemble_of_quiet {m : Machine β TracingHooks} {pc : U16}
    (h : ∀ addr ∈ peekedAddresses m.bus pc, ReadsQuietly m.bus addr) :
    (disassemble peekBus pc).run m = (disassembleMemory (viewed m.bus) pc, m) := by
  let bytes := (row (viewed m.bus pc)).instr.mode.operandBytes
  have hpeek (k : ℕ) (hk : k ≤ bytes) : peekBus (pc + BitVec.ofNat 16 k) m =
      (viewed m.bus (pc + BitVec.ofNat 16 k), m) := by
    refine peekBus_of_quiet (h _ (List.mem_map.mpr ⟨k, List.mem_range.mpr ?_, rfl⟩))
    change k < 1 + bytes
    omega
  have hwanted (k : ℕ) :
      (if bytes ≥ k then peekBus (pc + BitVec.ofNat 16 k) else pure 0 : StateM _ U8) m =
        (if bytes ≥ k then viewed m.bus (pc + BitVec.ofNat 16 k) else 0, m) := by
    by_cases hk : bytes ≥ k
    · simp only [hk, if_true, hpeek k hk]
    · simp only [hk, if_false]
      rfl
  have hopcode : peekBus pc m = (viewed m.bus pc, m) := by simpa using hpeek 0 (Nat.zero_le _)
  have hone : (if bytes ≥ 1 then peekBus (pc + 1) else pure 0 : StateM _ U8) m = _ := hwanted 1
  have htwo : (if bytes ≥ 2 then peekBus (pc + 2) else pure 0 : StateM _ U8) m = _ := hwanted 2
  simp only [bytes] at hone htwo
  simp only [disassemble, StateT.run, bind, StateT.bind, hopcode, hone, htwo]
  rfl

/-- Only the instruction callback writes lines. -/
theorem exec_hooks {α : Type} (p : Policy α) (m : Machine β TracingHooks) :
    (m.exec p).2.hooks = m.hooks := by
  have hcall (c : CpuCall) (m : Machine β TracingHooks) : (handle c m).2.hooks = m.hooks := by
    cases c <;> rfl
  exact Program.run_frame (R := fun s t : Machine β TracingHooks => t.hooks = s.hooks)
    (fun _ => rfl) (fun _ _ _ h h' => h'.trans h) hcall p m

theorem serviceInterrupt_hooks (V : Variant) (isNmi : Bool) (vector : U16)
    (m : Machine β TracingHooks) : (m.serviceInterrupt V isNmi vector).hooks = m.hooks := by
  have hpolls (m : Machine β TracingHooks) : m.pollImmediate.pollInterrupts.hooks = m.hooks := rfl
  rw [serviceInterrupt, hpolls, exec_hooks]
  rfl

/-- The line of an instruction whose bytes read quietly. -/
theorem onInstruction_lines {m : Machine β TracingHooks} (henabled : m.hooks.enabled = true)
    {pc : U16} (opcode : U8)
    (hquiet : ∀ addr ∈ peekedAddresses m.bus pc, ReadsQuietly m.bus addr) :
    (Hooks.onInstruction pc opcode m).hooks.lines =
      m.hooks.lines ++ [traceLine pc opcode (disassembleMemory (viewed m.bus) pc).1 m.cpu] := by
  simp only [Hooks.onInstruction, henabled, if_true, disassemble_of_quiet hquiet]

/-- **One step.** A traced step writes one line, that says what it should, if it executes an
instruction, and none otherwise. -/
theorem Traced.lines {s : Machine β TracingHooks} {t : Machine β NullHooks}
    (h : Traced (fun b c => b = c) true s t) (V : Variant) (hquiet : t.QuietFor ReadsQuietly) :
    ∃ lines, (s.stepMachine V).hooks.lines = s.hooks.lines ++ lines ∧
      lines.map readTraceLine = t.traceRecord?.toList.map some := by
  cases hkind : t.stepKind with
  | jammed =>
    have hjammed : s.cpu.jammed = true := h.cpu ▸ stepKind_eq_jammed.mp hkind
    refine ⟨[], ?_, by simp [traceRecord?, hkind]⟩
    rw [stepMachine_jammed V hjammed, List.append_nil]
    rfl
  | nmi =>
    obtain ⟨hjammed, hnmi⟩ := stepKind_eq_nmi.mp hkind
    refine ⟨[], ?_, by simp [traceRecord?, hkind]⟩
    rw [stepMachine_nmi V (h.cpu ▸ hjammed) (h.cpu ▸ hnmi), serviceInterrupt_hooks,
      List.append_nil]
  | irq =>
    obtain ⟨hjammed, hnmi, hirq⟩ := stepKind_eq_irq.mp hkind
    refine ⟨[], ?_, by simp [traceRecord?, hkind]⟩
    rw [stepMachine_irq V (h.cpu ▸ hjammed) (h.cpu ▸ hnmi) (h.cpu ▸ hirq), serviceInterrupt_hooks,
      List.append_nil]
  | instruction op =>
    obtain ⟨hjammed, hnmi, hirq, hopcode⟩ := idle_of_instruction hkind
    let f := s.pollImmediate.exec Policy.fetch
    let g := t.pollImmediate.exec Policy.fetch
    have hpoll := (h.exec peekSim_eq Policy.pollImmediate).2
    have hfetched : f.1 = g.1 := (hpoll.exec peekSim_eq Policy.fetch).1
    have hfetch : Traced (fun b c => b = c) true f.2 g.2 := (hpoll.exec peekSim_eq Policy.fetch).2
    have hf : f.1 = op := hfetched.trans hopcode
    have hlines : (s.stepMachine V).hooks.lines =
        (Hooks.onInstruction s.cpu.regs.pc f.1 f.2).hooks.lines := by
      rw [stepMachine_idle V (h.cpu ▸ hjammed) (h.cpu ▸ hnmi) (h.cpu ▸ hirq)]
      have hpolls (m : Machine β TracingHooks) : m.pollInterrupts.hooks = m.hooks := rfl
      rw [Machine.executeInstruction, hpolls, exec_hooks]
      rfl
    have hbus : f.2.bus = (t.exec Policy.fetch).2.bus := hfetch.bus
    have hpeeks : ∀ addr ∈ peekedAddresses f.2.bus s.cpu.regs.pc,
        ReadsQuietly f.2.bus addr := by
      rw [hbus, h.cpu]
      exact hquiet op hkind
    have henabled : f.2.hooks.enabled = true := hfetch.enabled
    have hhooks : f.2.hooks.lines = s.hooks.lines :=
      congrArg TracingHooks.lines (exec_hooks Policy.fetch s.pollImmediate)
    have hline := onInstruction_lines henabled f.1 hpeeks
    rw [hhooks] at hline
    refine ⟨_, hlines.trans hline, ?_⟩
    have hcpu : f.2.cpu = g.2.cpu := hfetch.cpu
    have hrecord : readTraceLine (traceLine s.cpu.regs.pc f.1
        (disassembleMemory (viewed f.2.bus) s.cpu.regs.pc).1 f.2.cpu) = t.traceRecord? := by
      rw [readTraceLine_traceLine (fitsColumn_disassembleMemory _ _), hcpu, hbus, h.cpu, hf,
        traceRecord?, hkind]
      rfl
    have hsome : t.traceRecord?.isSome = true := by rw [traceRecord?, hkind]; rfl
    obtain ⟨record, hr⟩ := Option.isSome_iff_exists.mp hsome
    rw [List.map_cons, List.map_nil, hrecord, hr]
    rfl

/-! ### Runs -/

/-- **The trace.** Whatever bus the instructions are on, as long as their bytes read quietly, and
whatever the pins do: the lines of a traced run are read back as the instructions that were
executed, in order. -/
theorem trace_read_back (V : Variant) (host : ℕ → List PinCall) (m : Machine β TracingHooks)
    (n : ℕ) (henabled : m.hooks.enabled = true)
    (hquiet : ∀ k < n, (m.unhook.pinnedBefore V host k).QuietFor ReadsQuietly) :
    ∃ lines, (m.hookedSteps V host n).hooks.lines = m.hooks.lines ++ lines ∧
      lines.map readTraceLine = ((List.range n).filterMap fun k =>
        (m.unhook.pinnedBefore V host k).traceRecord?).map some := by
  induction n with
  | zero => exact ⟨[], (List.append_nil _).symm, rfl⟩
  | succ n ih =>
    obtain ⟨lines, hlines, hread⟩ := ih fun k hk => hquiet k (by omega)
    have hstart : Traced (fun b c : β => b = c) true m m.unhook := ⟨rfl, rfl, henabled⟩
    have hrun := hstart.hookedSteps peekSim_eq V host n fun _ k hk => hquiet k (by omega)
    have hbefore : Traced (fun b c => b = c) true ((m.hookedSteps V host n).pinCalls (host n))
        (m.unhook.pinnedBefore V host n) := by
      rw [pinnedBefore, pinCalls_eq, pinCalls_eq]
      exact ⟨by rw [hrun.cpu], hrun.bus, hrun.enabled⟩
    obtain ⟨line, hline, hrecord⟩ := hbefore.lines V (hquiet n (Nat.lt_succ_self n))
    have hhooks : ((m.hookedSteps V host n).pinCalls (host n)).hooks.lines =
        (m.hookedSteps V host n).hooks.lines := by rw [pinCalls_eq]
    refine ⟨lines ++ line, ?_, ?_⟩
    · rw [← List.append_assoc, ← hlines, ← hhooks]
      exact hline
    · rw [List.map_append, hread, hrecord, List.range_succ, List.filterMap_append, List.map_append]
      cases hlast : (m.unhook.pinnedBefore V host n).traceRecord? <;> simp [hlast]

/-- A traced row of NOPs on flat memory. -/
theorem trace_read_back_nop :
    (({ cpu := {}, bus := { memory := fun _ => 0xEA }, hooks := {} } :
        Machine FlatBus TracingHooks).hookedSteps Nmos6502 (fun _ => []) 2).hooks.lines.map
      (fun line => (readTraceLine line).map fun r => (r.text, r.cycles)) =
        [some ("NOP", 1), some ("NOP", 3)] := by
  obtain ⟨lines, hlines, hread⟩ := trace_read_back Nmos6502 (fun _ => [])
    ({ cpu := {}, bus := { memory := fun _ => 0xEA }, hooks := {} } : Machine FlatBus TracingHooks)
    2 rfl fun _ _ _ _ addr _ => readsQuietly_flatBus _ addr
  have hrecords := congrArg (List.map (Option.map fun r => (r.text, r.cycles))) hread
  rw [List.map_map] at hrecords
  rw [hlines, List.nil_append]
  exact hrecords.trans (by decide +kernel)

end Machine

end Mos6502

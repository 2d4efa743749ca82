import Mos6502.OutsideStack
import Mos6502.StackDiscipline

/-!
# Interrupt frames over a program

An interrupted program shadows an undisturbed one: outside page one their memories
agree, and above the bytes that the program itself has on the stack lie the frames of
the services that are under way. A service puts one frame on top, the RTI of its handler
takes it away, and between services both programs take the same steps.
-/

namespace Mos6502

open Effects

/-! ### Handlers -/

/-- The addresses of the two interrupt handlers. -/
structure Handlers where
  nmi : U16
  irq : U16
  deriving DecidableEq, Repr

/-- The handlers that the vectors point at. -/
def handlers (mem : Memory) : Handlers where
  nmi := word (mem kNmiVector) (mem (kNmiVector + 1))
  irq := word (mem kIrqVector) (mem (kIrqVector + 1))

/-- The addresses that interrupts depend on: the handlers and the vectors. -/
def interruptAddresses (mem : Memory) : List U16 :=
  [(handlers mem).nmi, (handlers mem).irq, kNmiVector, kNmiVector + 1, kIrqVector,
    kIrqVector + 1]

/-- Both vectors point at a lone RTI outside page one. -/
structure LoneRti (mem : Memory) : Prop where
  nmi : mem (handlers mem).nmi = 0x40
  irq : mem (handlers mem).irq = 0x40
  nmi_outside : page (handlers mem).nmi ≠ 1
  irq_outside : page (handlers mem).irq ≠ 1

theorem LoneRti.outside {mem : Memory} (h : LoneRti mem) :
    ∀ addr ∈ interruptAddresses mem, page addr ≠ 1 := by
  intro addr hmem
  simp only [interruptAddresses, List.mem_cons, List.not_mem_nil, or_false] at hmem
  rcases hmem with rfl | rfl | rfl | rfl | rfl | rfl
  · exact h.nmi_outside
  · exact h.irq_outside
  all_goals decide

/-- An RTI gives the index registers and the accumulator on as it finds them. -/
theorem StepKind.rti_keeps (V : Variant) {kind : StepKind} (h : kind.bracket = .closing .interrupt)
    (a : Arch) : (kind.effect V a).regs.a = a.regs.a ∧ (kind.effect V a).regs.x = a.regs.x ∧
      (kind.effect V a).regs.y = a.regs.y := by
  cases kind with
  | jammed | nmi | irq => cases h
  | instruction op =>
    simp only [bracket, effect] at h ⊢
    cases hinstr : instr op with
    | SpecialInstr sop mode =>
      rw [hinstr] at h
      cases sop with
      | RTI => exact ⟨rfl, rfl, rfl⟩
      | _ => cases h
    | ImpliedInstr iop mode =>
      rw [hinstr] at h
      cases iop <;> cases h
    | _ =>
      rw [hinstr] at h
      cases h

/-! ### Frames -/

/-- A service under way: its interrupt, and the registers that it interrupted. -/
structure Frame where
  isNmi : Bool
  regs : Registers
  deriving DecidableEq, Repr

namespace Frame

def handler (hs : Handlers) (f : Frame) : U16 := if f.isNmi then hs.nmi else hs.irq

/-- The kind of the step that enters the service. -/
def kind (f : Frame) : StepKind := if f.isNmi then .nmi else .irq

/-- The bytes of a frame, in the order in which its RTI pulls them. -/
def bytes (f : Frame) : List U8 := StackPair.interrupt.saved false f.regs

end Frame

/-- What the registers are after the entry of a service. -/
structure Entered (hs : Handlers) (f : Frame) (r : Registers) : Prop where
  a : r.a = f.regs.a
  x : r.x = f.regs.x
  y : r.y = f.regs.y
  s : r.s = f.regs.s - 3
  i : r.i = true
  pc : r.pc = f.handler hs

/-- The services `fs`, the innermost first, were entered on top of the registers `base`
and led to the registers `r`. -/
def Nested (hs : Handlers) (base : Registers) : List Frame → Registers → Prop
  | [], r => r = base
  | f :: fs, r => Entered hs f r ∧ Nested hs base fs f.regs

/-- The interrupted program `x` shadows the undisturbed program `y`, which has `depth`
bytes on the stack, under the services `fs`. -/
structure Shadows (hs : Handlers) (depth : ℕ) (fs : List Frame) (x y : Arch) : Prop where
  nested : Nested hs y.regs fs x.regs
  outside : ∀ addr, page addr ≠ 1 → x.mem addr = y.mem addr
  stack : stackBytes x.mem x.regs.s (3 * fs.length + depth) =
    fs.flatMap Frame.bytes ++ stackBytes y.mem y.regs.s depth

namespace Shadows

variable {V : Variant} {hs : Handlers} {depth : ℕ} {fs : List Frame} {x y : Arch}

/-- **Service.** The entry of a service puts its frame on top. -/
theorem service (h : Shadows hs depth fs x y) (f : Frame) (hregs : f.regs = x.regs)
    (hhandlers : handlers y.mem = hs) (hroom : 3 * fs.length + 3 + depth ≤ 256) :
    Shadows hs depth (f :: fs) (f.kind.effect V x) y := by
  have hopen : f.kind.bracket = .opening .interrupt := by
    unfold Frame.kind
    split <;> rfl
  have hbreak : f.kind.executes Instr.isBreak = false := by
    unfold Frame.kind
    split <;> rfl
  obtain ⟨hpushed, hpulls, hloads⟩ := StepKind.of_opening hopen x
  have hbytes : f.kind.pushed x = f.bytes := by rw [hpushed, hbreak, Frame.bytes, hregs]
  have hne : f.kind.pushed x ≠ [] := hbytes ▸ List.cons_ne_nil _ _
  have hlength : (f.kind.pushed x).length = 3 := by rw [hbytes]; rfl
  have houtside (addr : U16) (hpage : page addr ≠ 1) :
      (f.kind.effect V x).mem addr = y.mem addr := by
    rw [f.kind.effect_mem_of_pushes V x hne, x.pushAll_mem _ hpage, h.outside addr hpage]
  refine ⟨⟨?_, hregs ▸ h.nested⟩, houtside, ?_⟩
  · obtain ⟨isNmi, r⟩ := f
    obtain rfl : r = x.regs := hregs
    have hs_eq : x.regs.s - 1 - 1 - 1 = x.regs.s - 3 := by grind
    cases isNmi with
    | true =>
      refine ⟨rfl, rfl, rfl, hs_eq, rfl, ?_⟩
      change word _ _ = hs.nmi
      rw [← hhandlers]
      exact congrArg₂ word (houtside kNmiVector (by decide)) (houtside (kNmiVector + 1) (by decide))
    | false =>
      refine ⟨rfl, rfl, rfl, hs_eq, rfl, ?_⟩
      change word _ _ = hs.irq
      rw [← hhandlers]
      exact congrArg₂ word (houtside kIrqVector (by decide)) (houtside (kIrqVector + 1) (by decide))
  · have hstack := f.kind.stackBytes_effect V x (n := 3 * fs.length + depth) hloads (by omega)
      (by omega) fun hnil => absurd hnil hne
    rw [hlength, hpulls, hbytes, h.stack, List.drop_zero, Nat.sub_zero] at hstack
    rw [List.length_cons, List.flatMap_cons, List.append_assoc, ← hstack]
    congr 1
    omega

/-- **RTI.** The return from the innermost service takes its frame away and gives the
interrupted registers back. -/
theorem rti {f : Frame} {kind : StepKind} (h : Shadows hs depth (f :: fs) x y)
    (hkind : kind.bracket = .closing .interrupt) (hroom : 3 * fs.length + 3 + depth ≤ 256) :
    Shadows hs depth fs (kind.effect V x) y ∧ (kind.effect V x).regs = f.regs := by
  obtain ⟨hentered, hnested⟩ := h.nested
  obtain ⟨hpushed, hpulls, hloads⟩ := StepKind.of_closing hkind x
  have hsize : StackPair.interrupt.size = 3 := rfl
  have hlength : f.bytes.length = 3 := rfl
  have hsplit : 3 * (f :: fs).length + depth = 3 + (3 * fs.length + depth) := by
    rw [List.length_cons]
    omega
  have hstack := h.stack
  rw [hsplit, List.flatMap_cons, List.append_assoc] at hstack
  have hregs : (kind.effect V x).regs = f.regs := by
    have htop : stackBytes x.mem x.regs.s StackPair.interrupt.size = f.bytes := by
      rw [stackBytes_add] at hstack
      exact (List.append_inj hstack (by rw [length_stackBytes, hlength])).1
    obtain ⟨hflags, hpc⟩ := StepKind.restores V hkind htop
    obtain ⟨ha, hx, hy⟩ := kind.rti_keeps V hkind x
    have hs_eq : (kind.effect V x).regs.s = f.regs.s := by
      rw [kind.effect_s V x hloads, hpushed, hpulls, hentered.s]
      exact (congrArg (· + BitVec.ofNat 8 3) (BitVec.sub_zero _)).trans (BitVec.sub_add_cancel ..)
    simp only [Registers.flags, Prod.mk.injEq] at hflags
    obtain ⟨hn, hv, hd, hi, hz, hc⟩ := hflags
    exact Registers.ext (ha.trans hentered.a) (hx.trans hentered.x) (hy.trans hentered.y) hs_eq hpc
      hn hv hd hi hz hc
  refine ⟨⟨hregs ▸ hnested, fun addr hpage => ?_, ?_⟩, hregs⟩
  · rw [kind.effect_mem_of_pulls V x (by rw [hpulls, hsize]; decide)]
    exact h.outside addr hpage
  · have heffect := kind.stackBytes_effect V x (n := 3 + (3 * fs.length + depth)) hloads
      (by omega) (by rw [hpushed]; simp; omega) fun _ hzero => by omega
    rw [hpushed, hpulls, hsize, hstack, List.drop_left' hlength] at heffect
    simpa using heffect

/-- **Step.** Between services both programs take the same step. -/
theorem step {op : U8} (h : Shadows hs depth [] x y)
    (hloads : (instr op).loadsStackPointer = false) (hbreak : (instr op).isBreak = false)
    (hout : (instr op).StaysOutside V (y.advance 1)) (hpulls : (instr op).pulls ≤ depth)
    (hroom : depth ≤ 250) :
    Shadows hs (((StepKind.instruction op).pushed y).length + (depth - (instr op).pulls)) []
      ((StepKind.instruction op).effect V x) ((StepKind.instruction op).effect V y) := by
  have hagrees : y.AgreesOutside x :=
    ⟨h.nested.symm, fun addr hpage => (h.outside addr hpage).symm⟩
  have hout' : (instr op).StaysOutside V (x.advance 1) := hout.of_agrees (hagrees.advance 1)
  have hstack : stackBytes x.mem x.regs.s depth = stackBytes y.mem y.regs.s depth := by
    simpa using h.stack
  have hpulled (k : ℕ) (hone : 1 ≤ k) (hk : k ≤ (instr op).pulls) :
      y.mem (y.pulled k) = x.mem (x.pulled k) := by
    rw [stackBytes_eq_map, stackBytes_eq_map] at hstack
    have hbyte := List.map_inj_left.mp hstack (k - 1) (List.mem_range.mpr (by omega))
    rw [Nat.sub_add_cancel hone] at hbyte
    exact hbyte.symm
  have heffect := Instr.effect_agrees (hagrees.advance 1) hout hbreak hpulled
  have hpushed : (StepKind.instruction op).pushed x = (StepKind.instruction op).pushed y :=
    Instr.pushed_of_regs (hagrees.advance 1).regs.symm
  have hthree : ((StepKind.instruction op).pushed y).length ≤ 3 := Instr.length_pushed_le _ _
  have hx := (StepKind.instruction op).stackBytes_effect V x hloads hpulls
    (by rw [hpushed]; omega) fun hnil _ _ hlive => Instr.effect_page_one hout' hnil hlive.1
  have hy := (StepKind.instruction op).stackBytes_effect V y hloads hpulls (by omega)
    fun hnil _ _ hlive => Instr.effect_page_one hout hnil hlive.1
  refine ⟨heffect.regs.symm, fun addr hpage => (heffect.mem addr hpage).symm, ?_⟩
  rw [hpushed, hstack, ← hy] at hx
  simpa [StepKind.pulls] using hx

end Shadows

end Mos6502

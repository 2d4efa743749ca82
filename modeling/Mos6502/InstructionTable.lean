import Mos6502.Instructions

/-!
# The instruction table

The single source of truth for the instruction set, in the source's order. The
dispatcher finds its row by the opcode column and the disassembler by position,
so the fact that the two columns agree (`code_row`) is what keeps them together.
-/

namespace Mos6502

/-- One row: opcode, mnemonic, instruction, and whether the opcode is documented. -/
structure Row where
  code : U8
  mnemonic : String
  instr : Instr
  documented : Bool
  deriving DecidableEq, Repr

def instructionTable : List Row :=
  [⟨0x00, "BRK", .SpecialInstr .BRK .Implied, true⟩,
   ⟨0x01, "ORA", .ReadInstr .ORA .IndirectX, true⟩,
   ⟨0x02, "JAM", .SpecialInstr .JAM .Implied, false⟩,
   ⟨0x03, "SLO", .RmwInstr .SLO .IndirectX, false⟩,
   ⟨0x04, "NOP", .ReadInstr .NOP_R .ZeroPage, false⟩,
   ⟨0x05, "ORA", .ReadInstr .ORA .ZeroPage, true⟩,
   ⟨0x06, "ASL", .RmwInstr .ASL .ZeroPage, true⟩, ⟨0x07, "SLO", .RmwInstr .SLO .ZeroPage, false⟩,
   ⟨0x08, "PHP", .ImpliedInstr .PHP .Implied, true⟩,
   ⟨0x09, "ORA", .ReadInstr .ORA .Immediate, true⟩,
   ⟨0x0A, "ASL", .AccumInstr .ASL .Accumulator, true⟩,
   ⟨0x0B, "ANC", .ReadInstr .ANC .Immediate, false⟩,
   ⟨0x0C, "NOP", .ReadInstr .NOP_R .Absolute, false⟩,
   ⟨0x0D, "ORA", .ReadInstr .ORA .Absolute, true⟩,
   ⟨0x0E, "ASL", .RmwInstr .ASL .Absolute, true⟩, ⟨0x0F, "SLO", .RmwInstr .SLO .Absolute, false⟩,
   ⟨0x10, "BPL", .BranchInstr .BPL .Relative, true⟩,
   ⟨0x11, "ORA", .ReadInstr .ORA .IndirectY, true⟩,
   ⟨0x12, "JAM", .SpecialInstr .JAM .Implied, false⟩,
   ⟨0x13, "SLO", .RmwInstr .SLO .IndirectY, false⟩,
   ⟨0x14, "NOP", .ReadInstr .NOP_R .ZeroPageX, false⟩,
   ⟨0x15, "ORA", .ReadInstr .ORA .ZeroPageX, true⟩,
   ⟨0x16, "ASL", .RmwInstr .ASL .ZeroPageX, true⟩, ⟨0x17, "SLO", .RmwInstr .SLO .ZeroPageX, false⟩,
   ⟨0x18, "CLC", .ImpliedInstr .CLC .Implied, true⟩,
   ⟨0x19, "ORA", .ReadInstr .ORA .AbsoluteY, true⟩,
   ⟨0x1A, "NOP", .ImpliedInstr .NOP .Implied, false⟩,
   ⟨0x1B, "SLO", .RmwInstr .SLO .AbsoluteY, false⟩,
   ⟨0x1C, "NOP", .ReadInstr .NOP_R .AbsoluteX, false⟩,
   ⟨0x1D, "ORA", .ReadInstr .ORA .AbsoluteX, true⟩,
   ⟨0x1E, "ASL", .RmwInstr .ASL .AbsoluteX, true⟩, ⟨0x1F, "SLO", .RmwInstr .SLO .AbsoluteX, false⟩,
   ⟨0x20, "JSR", .SpecialInstr .JSR .Absolute, true⟩,
   ⟨0x21, "AND", .ReadInstr .AND .IndirectX, true⟩,
   ⟨0x22, "JAM", .SpecialInstr .JAM .Implied, false⟩,
   ⟨0x23, "RLA", .RmwInstr .RLA .IndirectX, false⟩,
   ⟨0x24, "BIT", .ReadInstr .BIT .ZeroPage, true⟩, ⟨0x25, "AND", .ReadInstr .AND .ZeroPage, true⟩,
   ⟨0x26, "ROL", .RmwInstr .ROL .ZeroPage, true⟩, ⟨0x27, "RLA", .RmwInstr .RLA .ZeroPage, false⟩,
   ⟨0x28, "PLP", .ImpliedInstr .PLP .Implied, true⟩,
   ⟨0x29, "AND", .ReadInstr .AND .Immediate, true⟩,
   ⟨0x2A, "ROL", .AccumInstr .ROL .Accumulator, true⟩,
   ⟨0x2B, "ANC", .ReadInstr .ANC .Immediate, false⟩,
   ⟨0x2C, "BIT", .ReadInstr .BIT .Absolute, true⟩, ⟨0x2D, "AND", .ReadInstr .AND .Absolute, true⟩,
   ⟨0x2E, "ROL", .RmwInstr .ROL .Absolute, true⟩, ⟨0x2F, "RLA", .RmwInstr .RLA .Absolute, false⟩,
   ⟨0x30, "BMI", .BranchInstr .BMI .Relative, true⟩,
   ⟨0x31, "AND", .ReadInstr .AND .IndirectY, true⟩,
   ⟨0x32, "JAM", .SpecialInstr .JAM .Implied, false⟩,
   ⟨0x33, "RLA", .RmwInstr .RLA .IndirectY, false⟩,
   ⟨0x34, "NOP", .ReadInstr .NOP_R .ZeroPageX, false⟩,
   ⟨0x35, "AND", .ReadInstr .AND .ZeroPageX, true⟩,
   ⟨0x36, "ROL", .RmwInstr .ROL .ZeroPageX, true⟩, ⟨0x37, "RLA", .RmwInstr .RLA .ZeroPageX, false⟩,
   ⟨0x38, "SEC", .ImpliedInstr .SEC .Implied, true⟩,
   ⟨0x39, "AND", .ReadInstr .AND .AbsoluteY, true⟩,
   ⟨0x3A, "NOP", .ImpliedInstr .NOP .Implied, false⟩,
   ⟨0x3B, "RLA", .RmwInstr .RLA .AbsoluteY, false⟩,
   ⟨0x3C, "NOP", .ReadInstr .NOP_R .AbsoluteX, false⟩,
   ⟨0x3D, "AND", .ReadInstr .AND .AbsoluteX, true⟩,
   ⟨0x3E, "ROL", .RmwInstr .ROL .AbsoluteX, true⟩, ⟨0x3F, "RLA", .RmwInstr .RLA .AbsoluteX, false⟩,
   ⟨0x40, "RTI", .SpecialInstr .RTI .Implied, true⟩,
   ⟨0x41, "EOR", .ReadInstr .EOR .IndirectX, true⟩,
   ⟨0x42, "JAM", .SpecialInstr .JAM .Implied, false⟩,
   ⟨0x43, "SRE", .RmwInstr .SRE .IndirectX, false⟩,
   ⟨0x44, "NOP", .ReadInstr .NOP_R .ZeroPage, false⟩,
   ⟨0x45, "EOR", .ReadInstr .EOR .ZeroPage, true⟩,
   ⟨0x46, "LSR", .RmwInstr .LSR .ZeroPage, true⟩, ⟨0x47, "SRE", .RmwInstr .SRE .ZeroPage, false⟩,
   ⟨0x48, "PHA", .ImpliedInstr .PHA .Implied, true⟩,
   ⟨0x49, "EOR", .ReadInstr .EOR .Immediate, true⟩,
   ⟨0x4A, "LSR", .AccumInstr .LSR .Accumulator, true⟩,
   ⟨0x4B, "ALR", .ReadInstr .ALR .Immediate, false⟩,
   ⟨0x4C, "JMP", .SpecialInstr .JMP_ABS .Absolute, true⟩,
   ⟨0x4D, "EOR", .ReadInstr .EOR .Absolute, true⟩,
   ⟨0x4E, "LSR", .RmwInstr .LSR .Absolute, true⟩, ⟨0x4F, "SRE", .RmwInstr .SRE .Absolute, false⟩,
   ⟨0x50, "BVC", .BranchInstr .BVC .Relative, true⟩,
   ⟨0x51, "EOR", .ReadInstr .EOR .IndirectY, true⟩,
   ⟨0x52, "JAM", .SpecialInstr .JAM .Implied, false⟩,
   ⟨0x53, "SRE", .RmwInstr .SRE .IndirectY, false⟩,
   ⟨0x54, "NOP", .ReadInstr .NOP_R .ZeroPageX, false⟩,
   ⟨0x55, "EOR", .ReadInstr .EOR .ZeroPageX, true⟩,
   ⟨0x56, "LSR", .RmwInstr .LSR .ZeroPageX, true⟩, ⟨0x57, "SRE", .RmwInstr .SRE .ZeroPageX, false⟩,
   ⟨0x58, "CLI", .ImpliedInstr .CLI .Implied, true⟩,
   ⟨0x59, "EOR", .ReadInstr .EOR .AbsoluteY, true⟩,
   ⟨0x5A, "NOP", .ImpliedInstr .NOP .Implied, false⟩,
   ⟨0x5B, "SRE", .RmwInstr .SRE .AbsoluteY, false⟩,
   ⟨0x5C, "NOP", .ReadInstr .NOP_R .AbsoluteX, false⟩,
   ⟨0x5D, "EOR", .ReadInstr .EOR .AbsoluteX, true⟩,
   ⟨0x5E, "LSR", .RmwInstr .LSR .AbsoluteX, true⟩, ⟨0x5F, "SRE", .RmwInstr .SRE .AbsoluteX, false⟩,
   ⟨0x60, "RTS", .SpecialInstr .RTS .Implied, true⟩,
   ⟨0x61, "ADC", .ReadInstr .ADC .IndirectX, true⟩,
   ⟨0x62, "JAM", .SpecialInstr .JAM .Implied, false⟩,
   ⟨0x63, "RRA", .RmwInstr .RRA .IndirectX, false⟩,
   ⟨0x64, "NOP", .ReadInstr .NOP_R .ZeroPage, false⟩,
   ⟨0x65, "ADC", .ReadInstr .ADC .ZeroPage, true⟩,
   ⟨0x66, "ROR", .RmwInstr .ROR .ZeroPage, true⟩, ⟨0x67, "RRA", .RmwInstr .RRA .ZeroPage, false⟩,
   ⟨0x68, "PLA", .ImpliedInstr .PLA .Implied, true⟩,
   ⟨0x69, "ADC", .ReadInstr .ADC .Immediate, true⟩,
   ⟨0x6A, "ROR", .AccumInstr .ROR .Accumulator, true⟩,
   ⟨0x6B, "ARR", .ReadInstr .ARR .Immediate, false⟩,
   ⟨0x6C, "JMP", .SpecialInstr .JMP_IND .Indirect, true⟩,
   ⟨0x6D, "ADC", .ReadInstr .ADC .Absolute, true⟩,
   ⟨0x6E, "ROR", .RmwInstr .ROR .Absolute, true⟩, ⟨0x6F, "RRA", .RmwInstr .RRA .Absolute, false⟩,
   ⟨0x70, "BVS", .BranchInstr .BVS .Relative, true⟩,
   ⟨0x71, "ADC", .ReadInstr .ADC .IndirectY, true⟩,
   ⟨0x72, "JAM", .SpecialInstr .JAM .Implied, false⟩,
   ⟨0x73, "RRA", .RmwInstr .RRA .IndirectY, false⟩,
   ⟨0x74, "NOP", .ReadInstr .NOP_R .ZeroPageX, false⟩,
   ⟨0x75, "ADC", .ReadInstr .ADC .ZeroPageX, true⟩,
   ⟨0x76, "ROR", .RmwInstr .ROR .ZeroPageX, true⟩, ⟨0x77, "RRA", .RmwInstr .RRA .ZeroPageX, false⟩,
   ⟨0x78, "SEI", .ImpliedInstr .SEI .Implied, true⟩,
   ⟨0x79, "ADC", .ReadInstr .ADC .AbsoluteY, true⟩,
   ⟨0x7A, "NOP", .ImpliedInstr .NOP .Implied, false⟩,
   ⟨0x7B, "RRA", .RmwInstr .RRA .AbsoluteY, false⟩,
   ⟨0x7C, "NOP", .ReadInstr .NOP_R .AbsoluteX, false⟩,
   ⟨0x7D, "ADC", .ReadInstr .ADC .AbsoluteX, true⟩,
   ⟨0x7E, "ROR", .RmwInstr .ROR .AbsoluteX, true⟩, ⟨0x7F, "RRA", .RmwInstr .RRA .AbsoluteX, false⟩,
   ⟨0x80, "NOP", .ReadInstr .NOP_R .Immediate, false⟩,
   ⟨0x81, "STA", .WriteInstr .STA .IndirectX, true⟩,
   ⟨0x82, "NOP", .ReadInstr .NOP_R .Immediate, false⟩,
   ⟨0x83, "SAX", .WriteInstr .SAX .IndirectX, false⟩,
   ⟨0x84, "STY", .WriteInstr .STY .ZeroPage, true⟩,
   ⟨0x85, "STA", .WriteInstr .STA .ZeroPage, true⟩,
   ⟨0x86, "STX", .WriteInstr .STX .ZeroPage, true⟩,
   ⟨0x87, "SAX", .WriteInstr .SAX .ZeroPage, false⟩,
   ⟨0x88, "DEY", .ImpliedInstr .DEY .Implied, true⟩,
   ⟨0x89, "NOP", .ReadInstr .NOP_R .Immediate, false⟩,
   ⟨0x8A, "TXA", .ImpliedInstr .TXA .Implied, true⟩,
   ⟨0x8B, "ANE", .ReadInstr .ANE .Immediate, false⟩,
   ⟨0x8C, "STY", .WriteInstr .STY .Absolute, true⟩,
   ⟨0x8D, "STA", .WriteInstr .STA .Absolute, true⟩,
   ⟨0x8E, "STX", .WriteInstr .STX .Absolute, true⟩,
   ⟨0x8F, "SAX", .WriteInstr .SAX .Absolute, false⟩,
   ⟨0x90, "BCC", .BranchInstr .BCC .Relative, true⟩,
   ⟨0x91, "STA", .WriteInstr .STA .IndirectY, true⟩,
   ⟨0x92, "JAM", .SpecialInstr .JAM .Implied, false⟩,
   ⟨0x93, "SHA", .UnstableStoreInstr .SHA .IndirectY, false⟩,
   ⟨0x94, "STY", .WriteInstr .STY .ZeroPageX, true⟩,
   ⟨0x95, "STA", .WriteInstr .STA .ZeroPageX, true⟩,
   ⟨0x96, "STX", .WriteInstr .STX .ZeroPageY, true⟩,
   ⟨0x97, "SAX", .WriteInstr .SAX .ZeroPageY, false⟩,
   ⟨0x98, "TYA", .ImpliedInstr .TYA .Implied, true⟩,
   ⟨0x99, "STA", .WriteInstr .STA .AbsoluteY, true⟩,
   ⟨0x9A, "TXS", .ImpliedInstr .TXS .Implied, true⟩,
   ⟨0x9B, "TAS", .UnstableStoreInstr .TAS .AbsoluteY, false⟩,
   ⟨0x9C, "SHY", .UnstableStoreInstr .SHY .AbsoluteX, false⟩,
   ⟨0x9D, "STA", .WriteInstr .STA .AbsoluteX, true⟩,
   ⟨0x9E, "SHX", .UnstableStoreInstr .SHX .AbsoluteY, false⟩,
   ⟨0x9F, "SHA", .UnstableStoreInstr .SHA .AbsoluteY, false⟩,
   ⟨0xA0, "LDY", .ReadInstr .LDY .Immediate, true⟩,
   ⟨0xA1, "LDA", .ReadInstr .LDA .IndirectX, true⟩,
   ⟨0xA2, "LDX", .ReadInstr .LDX .Immediate, true⟩,
   ⟨0xA3, "LAX", .ReadInstr .LAX .IndirectX, false⟩,
   ⟨0xA4, "LDY", .ReadInstr .LDY .ZeroPage, true⟩, ⟨0xA5, "LDA", .ReadInstr .LDA .ZeroPage, true⟩,
   ⟨0xA6, "LDX", .ReadInstr .LDX .ZeroPage, true⟩, ⟨0xA7, "LAX", .ReadInstr .LAX .ZeroPage, false⟩,
   ⟨0xA8, "TAY", .ImpliedInstr .TAY .Implied, true⟩,
   ⟨0xA9, "LDA", .ReadInstr .LDA .Immediate, true⟩,
   ⟨0xAA, "TAX", .ImpliedInstr .TAX .Implied, true⟩,
   ⟨0xAB, "LXA", .ReadInstr .LXA .Immediate, false⟩,
   ⟨0xAC, "LDY", .ReadInstr .LDY .Absolute, true⟩, ⟨0xAD, "LDA", .ReadInstr .LDA .Absolute, true⟩,
   ⟨0xAE, "LDX", .ReadInstr .LDX .Absolute, true⟩, ⟨0xAF, "LAX", .ReadInstr .LAX .Absolute, false⟩,
   ⟨0xB0, "BCS", .BranchInstr .BCS .Relative, true⟩,
   ⟨0xB1, "LDA", .ReadInstr .LDA .IndirectY, true⟩,
   ⟨0xB2, "JAM", .SpecialInstr .JAM .Implied, false⟩,
   ⟨0xB3, "LAX", .ReadInstr .LAX .IndirectY, false⟩,
   ⟨0xB4, "LDY", .ReadInstr .LDY .ZeroPageX, true⟩,
   ⟨0xB5, "LDA", .ReadInstr .LDA .ZeroPageX, true⟩,
   ⟨0xB6, "LDX", .ReadInstr .LDX .ZeroPageY, true⟩,
   ⟨0xB7, "LAX", .ReadInstr .LAX .ZeroPageY, false⟩,
   ⟨0xB8, "CLV", .ImpliedInstr .CLV .Implied, true⟩,
   ⟨0xB9, "LDA", .ReadInstr .LDA .AbsoluteY, true⟩,
   ⟨0xBA, "TSX", .ImpliedInstr .TSX .Implied, true⟩,
   ⟨0xBB, "LAS", .ReadInstr .LAS .AbsoluteY, false⟩,
   ⟨0xBC, "LDY", .ReadInstr .LDY .AbsoluteX, true⟩,
   ⟨0xBD, "LDA", .ReadInstr .LDA .AbsoluteX, true⟩,
   ⟨0xBE, "LDX", .ReadInstr .LDX .AbsoluteY, true⟩,
   ⟨0xBF, "LAX", .ReadInstr .LAX .AbsoluteY, false⟩,
   ⟨0xC0, "CPY", .ReadInstr .CPY .Immediate, true⟩,
   ⟨0xC1, "CMP", .ReadInstr .CMP .IndirectX, true⟩,
   ⟨0xC2, "NOP", .ReadInstr .NOP_R .Immediate, false⟩,
   ⟨0xC3, "DCP", .RmwInstr .DCP .IndirectX, false⟩,
   ⟨0xC4, "CPY", .ReadInstr .CPY .ZeroPage, true⟩, ⟨0xC5, "CMP", .ReadInstr .CMP .ZeroPage, true⟩,
   ⟨0xC6, "DEC", .RmwInstr .DEC .ZeroPage, true⟩, ⟨0xC7, "DCP", .RmwInstr .DCP .ZeroPage, false⟩,
   ⟨0xC8, "INY", .ImpliedInstr .INY .Implied, true⟩,
   ⟨0xC9, "CMP", .ReadInstr .CMP .Immediate, true⟩,
   ⟨0xCA, "DEX", .ImpliedInstr .DEX .Implied, true⟩,
   ⟨0xCB, "SBX", .ReadInstr .SBX .Immediate, false⟩,
   ⟨0xCC, "CPY", .ReadInstr .CPY .Absolute, true⟩, ⟨0xCD, "CMP", .ReadInstr .CMP .Absolute, true⟩,
   ⟨0xCE, "DEC", .RmwInstr .DEC .Absolute, true⟩, ⟨0xCF, "DCP", .RmwInstr .DCP .Absolute, false⟩,
   ⟨0xD0, "BNE", .BranchInstr .BNE .Relative, true⟩,
   ⟨0xD1, "CMP", .ReadInstr .CMP .IndirectY, true⟩,
   ⟨0xD2, "JAM", .SpecialInstr .JAM .Implied, false⟩,
   ⟨0xD3, "DCP", .RmwInstr .DCP .IndirectY, false⟩,
   ⟨0xD4, "NOP", .ReadInstr .NOP_R .ZeroPageX, false⟩,
   ⟨0xD5, "CMP", .ReadInstr .CMP .ZeroPageX, true⟩,
   ⟨0xD6, "DEC", .RmwInstr .DEC .ZeroPageX, true⟩, ⟨0xD7, "DCP", .RmwInstr .DCP .ZeroPageX, false⟩,
   ⟨0xD8, "CLD", .ImpliedInstr .CLD .Implied, true⟩,
   ⟨0xD9, "CMP", .ReadInstr .CMP .AbsoluteY, true⟩,
   ⟨0xDA, "NOP", .ImpliedInstr .NOP .Implied, false⟩,
   ⟨0xDB, "DCP", .RmwInstr .DCP .AbsoluteY, false⟩,
   ⟨0xDC, "NOP", .ReadInstr .NOP_R .AbsoluteX, false⟩,
   ⟨0xDD, "CMP", .ReadInstr .CMP .AbsoluteX, true⟩,
   ⟨0xDE, "DEC", .RmwInstr .DEC .AbsoluteX, true⟩, ⟨0xDF, "DCP", .RmwInstr .DCP .AbsoluteX, false⟩,
   ⟨0xE0, "CPX", .ReadInstr .CPX .Immediate, true⟩,
   ⟨0xE1, "SBC", .ReadInstr .SBC .IndirectX, true⟩,
   ⟨0xE2, "NOP", .ReadInstr .NOP_R .Immediate, false⟩,
   ⟨0xE3, "ISC", .RmwInstr .ISC .IndirectX, false⟩,
   ⟨0xE4, "CPX", .ReadInstr .CPX .ZeroPage, true⟩, ⟨0xE5, "SBC", .ReadInstr .SBC .ZeroPage, true⟩,
   ⟨0xE6, "INC", .RmwInstr .INC .ZeroPage, true⟩, ⟨0xE7, "ISC", .RmwInstr .ISC .ZeroPage, false⟩,
   ⟨0xE8, "INX", .ImpliedInstr .INX .Implied, true⟩,
   ⟨0xE9, "SBC", .ReadInstr .SBC .Immediate, true⟩,
   ⟨0xEA, "NOP", .ImpliedInstr .NOP .Implied, true⟩,
   ⟨0xEB, "SBC", .ReadInstr .SBC .Immediate, false⟩,
   ⟨0xEC, "CPX", .ReadInstr .CPX .Absolute, true⟩, ⟨0xED, "SBC", .ReadInstr .SBC .Absolute, true⟩,
   ⟨0xEE, "INC", .RmwInstr .INC .Absolute, true⟩, ⟨0xEF, "ISC", .RmwInstr .ISC .Absolute, false⟩,
   ⟨0xF0, "BEQ", .BranchInstr .BEQ .Relative, true⟩,
   ⟨0xF1, "SBC", .ReadInstr .SBC .IndirectY, true⟩,
   ⟨0xF2, "JAM", .SpecialInstr .JAM .Implied, false⟩,
   ⟨0xF3, "ISC", .RmwInstr .ISC .IndirectY, false⟩,
   ⟨0xF4, "NOP", .ReadInstr .NOP_R .ZeroPageX, false⟩,
   ⟨0xF5, "SBC", .ReadInstr .SBC .ZeroPageX, true⟩,
   ⟨0xF6, "INC", .RmwInstr .INC .ZeroPageX, true⟩, ⟨0xF7, "ISC", .RmwInstr .ISC .ZeroPageX, false⟩,
   ⟨0xF8, "SED", .ImpliedInstr .SED .Implied, true⟩,
   ⟨0xF9, "SBC", .ReadInstr .SBC .AbsoluteY, true⟩,
   ⟨0xFA, "NOP", .ImpliedInstr .NOP .Implied, false⟩,
   ⟨0xFB, "ISC", .RmwInstr .ISC .AbsoluteY, false⟩,
   ⟨0xFC, "NOP", .ReadInstr .NOP_R .AbsoluteX, false⟩,
   ⟨0xFD, "SBC", .ReadInstr .SBC .AbsoluteX, true⟩,
   ⟨0xFE, "INC", .RmwInstr .INC .AbsoluteX, true⟩, ⟨0xFF, "ISC", .RmwInstr .ISC .AbsoluteX, false⟩]

/-- The opcode column counts up from zero. -/
theorem codes_instructionTable :
    instructionTable.map Row.code = (List.range 256).map (BitVec.ofNat 8) := by decide +kernel

theorem length_instructionTable : instructionTable.length = 256 := by
  simpa using congrArg List.length codes_instructionTable

/-- The row at the table position of an opcode. -/
def row (opcode : U8) : Row :=
  instructionTable.get ⟨opcode.toNat, by rw [length_instructionTable]; exact opcode.isLt⟩

theorem code_getElem (k : ℕ) (hk : k < instructionTable.length) :
    instructionTable[k].code = BitVec.ofNat 8 k := by
  have hmap : k < (instructionTable.map Row.code).length := by simpa using hk
  have h : (instructionTable.map Row.code)[k] = BitVec.ofNat 8 k := by
    simp only [codes_instructionTable, List.getElem_map, List.getElem_range]
  rwa [List.getElem_map] at h

/-- The row of a position carries the opcode of that position. -/
@[simp] theorem code_row (opcode : U8) : (row opcode).code = opcode := by
  simp only [row, List.get_eq_getElem, code_getElem, BitVec.ofNat_toNat, BitVec.setWidth_eq]

/-- A property that every row of the table passes holds of the row of each opcode. -/
theorem row_of_all {P : Row → Prop} [DecidablePred P]
    (h : instructionTable.all (fun r => decide (P r)) = true) (opcode : U8) : P (row opcode) :=
  of_decide_eq_true (List.all_eq_true.mp h _ (List.get_mem _ _))

/-- The instruction of an opcode. -/
def instr (opcode : U8) : Instr := (row opcode).instr

/-- The modes that the table gives the shapes: a branch is relative, a jump is absolute or
indirect, and nothing is stored into an immediate operand. -/
def Instr.modeFits : Instr → Bool
  | .WriteInstr _ mode | .RmwInstr _ mode => mode != .Immediate
  | .BranchInstr _ mode => mode == .Relative
  | .SpecialInstr .JSR mode | .SpecialInstr .JMP_ABS mode => mode == .Absolute
  | .SpecialInstr .JMP_IND mode => mode == .Indirect
  | _ => true

theorem instr_modeFits (op : U8) : (instr op).modeFits = true :=
  row_of_all (P := fun r => r.instr.modeFits = true) (by decide +kernel) op

/-- The dispatch switch: the case whose label is the opcode. -/
def dispatch (V : Variant) (opcode : U8) : Policy Unit :=
  match instructionTable.find? (fun r => r.code == opcode) with
  | some r => r.instr.execute V
  | none => pure ()

/-- The switch covers every opcode, and its case is the row at that position. -/
theorem dispatch_eq (V : Variant) (opcode : U8) : dispatch V opcode = (instr opcode).execute V := by
  have hfind : instructionTable.find? (fun r => r.code == opcode) = some (row opcode) := by
    rw [List.find?_eq_some_iff_getElem]
    have hlength : opcode.toNat < instructionTable.length := by
      rw [length_instructionTable]
      exact opcode.isLt
    refine ⟨by simp, opcode.toNat, hlength, rfl, ?_⟩
    intro k hk
    have hlt := opcode.isLt
    have hne : BitVec.ofNat 8 k ≠ opcode := by
      intro heq
      rw [← heq, BitVec.toNat_ofNat] at hk
      omega
    simpa [code_getElem k (by omega)] using hne
  simp only [dispatch, hfind, instr]

end Mos6502

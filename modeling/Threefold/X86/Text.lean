import Threefold.Platform
import Threefold.X86

/-!
# Modules as text

The written form of machine code, as an assembler reads it. Directives and instructions are indented
and symbols and labels are not. A platform decorates symbols, but not the labels of jumps. Comments,
and the list of exceptions in front, are written only on request. In a string every byte that is not
a printable ASCII character is written by its three octal digits, save for line feeds and
tabulators.
-/

namespace Threefold.X86

/-- A byte inside a string. -/
def escapeByte (b : UInt8) : String :=
  if b = 0x22 then "\\\""
  else if b = 0x5c then "\\\\"
  else if b = 0x0a then "\\n"
  else if b = 0x09 then "\\t"
  else if 0x20 ≤ b ∧ b ≤ 0x7e then (Char.ofUInt8 b).toString
  else
    let digits := Nat.toDigits 8 b.toNat
    "\\" ++ "".pushn '0' (3 - digits.length) ++ String.ofList digits

/-- The bytes of a text as they are written inside a string. -/
def escape (s : String) : String :=
  String.join (s.toUTF8.data.toList.map escapeByte)

/-- The written form of a label. -/
def Label.text (l : Label) : String :=
  ".L" ++ l.function ++ "_" ++ toString l.index

/-- The written form of a register. -/
def Register.text (r : Register) : String :=
  "%" ++ r.name

/-- The written form of a byte register. -/
def ByteRegister.text (r : ByteRegister) : String :=
  "%" ++ r.name

/-- The written form of an operand. -/
def Operand.text (p : Platform) : Operand → String
  | immediate n => "$" ++ toString n
  | address s => "$" ++ p.decorate s
  | register r => r.text
  | memory base offset =>
    (if offset = 0 then "" else toString offset) ++ "(" ++ base.text ++ ")"
  | global s => p.decorate s

/-- The written form of an instruction. -/
def Instruction.text (p : Platform) : Instruction → String
  | mov s d => two "movl" s d
  | movzbl s d => "movzbl " ++ s.text ++ ", " ++ d.text
  | add s d => two "addl" s d
  | sub s d => two "subl" s d
  | imul s d => two "imull" s d
  | and s d => two "andl" s d
  | or s d => two "orl" s d
  | cmp s d => two "cmpl" s d
  | test s d => two "testl" s d
  | set c d => "set" ++ c.suffix ++ " " ++ d.text
  | cltd => "cltd"
  | idiv d => "idivl " ++ d.text p
  | push s => "pushl " ++ s.text p
  | pop d => "popl " ++ d.text p
  | call s => "call " ++ p.decorate s
  | jmp l => "jmp " ++ l.text
  | jcc c l => "j" ++ c.suffix ++ " " ++ l.text
  | ret => "ret"
where
  /-- An instruction with a source and a destination. -/
  two (name : String) (s d : Operand) : String :=
    name ++ " " ++ s.text p ++ ", " ++ d.text p

/-- The written form of a directive: its line, unless it is a comment and none are wanted. -/
def Directive.line? (p : Platform) (comments : Bool) : Directive → Option String
  | enter .code => some "    .text"
  | enter .constants => some "    .section .rodata"
  | enter .data => some "    .data"
  | .export s => some ("    .globl " ++ p.decorate s)
  | symbol s => some (p.decorate s ++ ":")
  | label l => some (l.text ++ ":")
  | string s => some ("    .asciz \"" ++ escape s ++ "\"")
  | word n => some ("    .long " ++ toString n)
  | comment s => if comments then some ("    # " ++ s) else none
  | instruction i => some ("    " ++ i.text p)

/-- The lines that say which number stands for which exception. -/
def exceptionLines (names : List String) : List String :=
  names.zipIdx.map fun (x, i) => "# exception " ++ toString (i + 1) ++ " = " ++ x

/-- The written form of a module. -/
def Assembly.text (a : Assembly) (p : Platform) (comments : Bool) : String :=
  String.join ((exceptionLines (if comments then a.exceptions else []) ++
    a.directives.filterMap (Directive.line? p comments)).map (· ++ "\n"))

end Threefold.X86

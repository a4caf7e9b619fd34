import TaterTOS.Lib.Word
import TaterTOS.Lib.Radix

/-!
# User page tables

A model of the user half of `kernel/mm/vmm.c`. A table is a physical page of 512 entries; `mem`
gives the entries by the physical address of their table. What `alloc_table` will answer is part
of the state: `0`, or the end of the list, is a failure.

The translation cache is not modelled.
-/

namespace TaterTOS.Vmm

open Lib Radix

/-! ### Constants -/

def flagPresent : ℕ := 0x001
def flagWrite : ℕ := 0x002
def flagUser : ℕ := 0x004
def flagLarge : ℕ := 0x080
def flagNofree : ℕ := 0x200
def flagNoExecute : ℕ := 1 <<< 63
def pteFlagMask : ℕ := 0xFFF ||| flagNoExecute

def frameMask : ℕ := 0x000FFFFFFFFFF000

def userVaTop : ℕ := 0x0000800000000000

/-! ### Tables -/

structure State where
  mem : ℕ → ℕ → ℕ
  kernelPml4 : ℕ
  answers : List ℕ

def isPresent (entry : ℕ) : Bool := entry &&& flagPresent != 0
def isLarge (entry : ℕ) : Bool := entry &&& flagLarge != 0
def frameOf (entry : ℕ) : ℕ := entry &&& frameMask

def pml4Index (virt : ℕ) : ℕ := (virt >>> 39) &&& 0x1FF
def pdptIndex (virt : ℕ) : ℕ := (virt >>> 30) &&& 0x1FF
def pdIndex (virt : ℕ) : ℕ := (virt >>> 21) &&& 0x1FF
def ptIndex (virt : ℕ) : ℕ := (virt >>> 12) &&& 0x1FF

def State.set (s : State) (table idx entry : ℕ) : State :=
  { s with mem := write s.mem table idx entry }

def allocTable (s : State) : ℕ × State :=
  match s.answers with
  | [] => (0, s)
  | phys :: answers =>
    if phys = 0 then (0, { s with answers := answers })
    else (phys, { s with answers := answers, mem := Function.update s.mem phys fun _ => 0 })

def parentEntry (phys flags : ℕ) : ℕ :=
  phys ||| flagPresent ||| flagWrite ||| (flags &&& flagUser)

def getOrAllocTable (s : State) (parent idx flags : ℕ) : Option ℕ × State :=
  if !isPresent (s.mem parent idx) then
    let (phys, s) := allocTable s
    if phys = 0 then (none, s)
    else
      let s := s.set parent idx (parentEntry phys flags)
      (some (frameOf (s.mem parent idx)), s)
  else (some (frameOf (s.mem parent idx)), s)

def vmmLookupUserPte (s : State) (pml4 virt : ℕ) : Option (ℕ × ℕ) :=
  if pml4 = 0 ∨ userVaTop ≤ virt then none
  else
    let e := s.mem pml4 (pml4Index virt)
    if !isPresent e then none
    else
      let pdpe := s.mem (frameOf e) (pdptIndex virt)
      if !isPresent pdpe then none
      else if isLarge pdpe then none
      else
        let pde := s.mem (frameOf pdpe) (pdIndex virt)
        if !isPresent pde then none
        else if isLarge pde then none
        else if !isPresent (s.mem (frameOf pde) (ptIndex virt)) then none
        else some (frameOf pde, ptIndex virt)

/-! ### Calls -/

def vmmCreateAddressSpace (s : State) : ℕ × State :=
  let (pml4, s) := allocTable s
  if pml4 = 0 then (0, s)
  else
    (pml4, (List.range' 256 256).foldl (fun s i => s.set pml4 i (s.mem s.kernelPml4 i)) s)

def leafEntry (phys flags : ℕ) : ℕ :=
  (phys &&& frameMask) ||| (flags &&& pteFlagMask) ||| flagPresent

def vmmMapUser (s : State) (pml4 virt phys flags : ℕ) : Bool × State :=
  if userVaTop ≤ virt then (false, s)
  else match getOrAllocTable s pml4 (pml4Index virt) flags with
    | (none, s) => (false, s)
    | (some pdpt, s) => match getOrAllocTable s pdpt (pdptIndex virt) flags with
      | (none, s) => (false, s)
      | (some pd, s) => match getOrAllocTable s pd (pdIndex virt) flags with
        | (none, s) => (false, s)
        | (some pt, s) => (true, s.set pt (ptIndex virt) (leafEntry phys flags))

def vmmVirtToPhysUser (s : State) (pml4 virt : ℕ) : ℕ :=
  if pml4 = 0 then 0
  else if userVaTop ≤ virt then 0
  else
    let e := s.mem pml4 (pml4Index virt)
    if !isPresent e then 0
    else
      let pdpe := s.mem (frameOf e) (pdptIndex virt)
      if !isPresent pdpe then 0
      else if isLarge pdpe then u64 (frameOf pdpe + (virt &&& 0x3FFFFFFF))
      else
        let pde := s.mem (frameOf pdpe) (pdIndex virt)
        if !isPresent pde then 0
        else if isLarge pde then u64 (frameOf pde + (virt &&& 0x1FFFFF))
        else
          let pte := s.mem (frameOf pde) (ptIndex virt)
          if !isPresent pte then 0
          else u64 (frameOf pte + (virt &&& 0xFFF))

def vmmQueryUserFlags (s : State) (pml4 virt : ℕ) : ℕ :=
  match vmmLookupUserPte s pml4 virt with
  | none => 0
  | some (pt, i) => s.mem pt i &&& pteFlagMask

def vmmUnmapUser (s : State) (pml4 virt : ℕ) : State :=
  if pml4 = 0 then s
  else if userVaTop ≤ virt then s
  else
    let e := s.mem pml4 (pml4Index virt)
    if !isPresent e then s
    else
      let pdpe := s.mem (frameOf e) (pdptIndex virt)
      if !isPresent pdpe then s
      else
        let pde := s.mem (frameOf pdpe) (pdIndex virt)
        if !isPresent pde then s
        else if isLarge pde then s
        else if !isPresent (s.mem (frameOf pde) (ptIndex virt)) then s
        else s.set (frameOf pde) (ptIndex virt) 0

def protectMask : ℕ := flagUser ||| flagWrite ||| flagNoExecute

def protectEntry (entry flags : ℕ) : ℕ :=
  (entry &&& not64 protectMask) ||| flagPresent ||| (flags &&& protectMask)

def vmmProtectUser (s : State) (pml4 virt flags : ℕ) : Bool × State :=
  match vmmLookupUserPte s pml4 virt with
  | none => (false, s)
  | some (pt, i) => (true, s.set pt i (protectEntry (s.mem pt i) flags))

/-! ### Sequences of calls -/

structure System where
  state : State
  spaces : List ℕ

inductive Op
  | create
  | map (n : ℕ) (virt phys flags : UInt64)
  | unmap (n : ℕ) (virt : UInt64)
  | protect (n : ℕ) (virt flags : UInt64)

def step (y : System) : Op → System
  | .create =>
    let (pml4, s) := vmmCreateAddressSpace y.state
    ⟨s, if pml4 = 0 then y.spaces else y.spaces ++ [pml4]⟩
  | .map n virt phys flags => match y.spaces[n]? with
    | none => y
    | some pml4 => ⟨(vmmMapUser y.state pml4 virt.toNat phys.toNat flags.toNat).2, y.spaces⟩
  | .unmap n virt => match y.spaces[n]? with
    | none => y
    | some pml4 => ⟨vmmUnmapUser y.state pml4 virt.toNat, y.spaces⟩
  | .protect n virt flags => match y.spaces[n]? with
    | none => y
    | some pml4 => ⟨(vmmProtectUser y.state pml4 virt.toNat flags.toNat).2, y.spaces⟩

def run (y : System) (ops : List Op) : System := ops.foldl step y

end TaterTOS.Vmm

import TaterTOS.Vmm.Model

/-!
# Page maps

What an address space is for: a finite map from page numbers to frames with their flags. The
page-table calls refine the operations on it, and the code above the page tables is modelled over
these maps.
-/

namespace TaterTOS.Vmm

open Function

abbrev PageMap := ℕ → Option (ℕ × ℕ)

namespace PageMap

def empty : PageMap := fun _ => none

def map (m : PageMap) (virt phys flags : ℕ) : PageMap :=
  update m (virt / 4096) (some (frameOf phys, (flags &&& pteFlagMask) ||| flagPresent))

def unmap (m : PageMap) (virt : ℕ) : PageMap := update m (virt / 4096) none

def protect (m : PageMap) (virt flags : ℕ) : PageMap :=
  update m (virt / 4096)
    ((m (virt / 4096)).map fun x => (x.1, protectEntry x.2 flags))

/-- The answer of `vmm_virt_to_phys_user`; a page at frame `0` looks unmapped. -/
def virtToPhys (m : PageMap) (virt : ℕ) : ℕ :=
  ((m (virt / 4096)).map fun x => x.1 + virt % 4096).getD 0

def queryFlags (m : PageMap) (virt : ℕ) : ℕ := ((m (virt / 4096)).map Prod.snd).getD 0

end PageMap

end TaterTOS.Vmm

import NctuCourses.Osdi.Task.Create

namespace NctuCourses.Osdi

namespace Sound

variable {L : Image} {rsv : Nat → Prop} {I : Set Nat} {K : Kernel} {fl : List Nat}

end Sound

section Trapped

variable {L : Image} {K : Kernel} {tf : Trapframe} {c t pid : Nat} {pgdir : Word} {mem : Mem}

end Trapped

theorem Room.setTf {L : Image} {K : Kernel} (h : Room L K) (t : Nat) (tf : Trapframe) :
    Room L (K.setTf t tf) := by
  obtain ⟨⟨pid, hp, hfree⟩, hpages⟩ := h
  refine ⟨⟨pid, hp, ?_⟩, hpages⟩
  by_cases hu : pid = t
  · simpa [Kernel.setTf, hu] using hu ▸ hfree
  · simpa [Kernel.setTf, hu] using hfree

end NctuCourses.Osdi

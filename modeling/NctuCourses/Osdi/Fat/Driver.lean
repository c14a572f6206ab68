import NctuCourses.Osdi.Disk.Transfer
import NctuCourses.Osdi.Fat.Window

namespace NctuCourses.Osdi.Fat

open NctuCourses.Lib
open NctuCourses.Osdi.Disk (Machine AtaDrive InRange Named QuietRead QuietWrite diskId sectorAt)

/-- The sectors that the file system knows are those of the disk that the driver uses. -/
def Behind (env : Disk.Env) (m : Machine) (v : Fatfs) : Prop :=
  v.drive.sect = m.disks (env.devices diskId).channel (env.devices diskId).slave

/-- The blocks are those in memory at `buff`. -/
def InMemory (m : Machine) (buff : Word) (buf : Nat → Sector) : Prop :=
  ∀ k, 512 * (k + 1) ≤ 2 ^ 32 → buf k = sectorAt m.mem (buff + BitVec.ofNat 32 (512 * k))

section

variable {env : Disk.Env} {m : Machine} {v : Fatfs} {buff sector count : Word} {buf : Nat → Sector}
  (hd : AtaDrive (env.devices diskId)) (hr : InRange (env.devices diskId) sector count)
  (hchs : Named (env.devices diskId) (sector.toNat + count.toNat)) (hv : v.drive.Quiet)
  (hdisk : Behind env m v) (hmem : InMemory m buff buf)

include hd hr hchs hv hdisk hmem

/-- On a drive without errors, `disk_read` is what the driver does. -/
theorem diskRead_driver (hquiet : QuietRead env count.toNat) :
    Post (diskRead buf sector.toNat count.toNat) v fun r t => ∃ m',
      Converges (fun fuel => Disk.diskRead env fuel buff sector count m) (r.1, m') ∧
        Behind env m' t ∧ InMemory m' buff r.2 := by
  obtain ⟨m', hconv, hdisks, hmem'⟩ := Disk.diskRead_converges (m := m) buff hd hr hchs hquiet
  rw [post_diskRead hv]
  refine ⟨m', hconv, ?_, fun k hk => ?_⟩
  · rw [Behind, hdisks]
    exact hdisk
  funext j
  dsimp only
  rw [sectorAt, hmem', BitVec.add_assoc, ← BitVec.ofNat_add]
  by_cases h0 : k = 0
  · rw [h0, Nat.mul_zero, Nat.zero_add, Disk.overlay_of_lt _ _ _ j.isLt,
      Function.update_self, hdisk]
  · rw [Disk.overlay_of_ge _ _ _ (by omega) (by omega), Function.update_of_ne h0,
      hmem k hk, sectorAt, BitVec.add_assoc, ← BitVec.ofNat_add]

/-- The same for `disk_write`. -/
theorem diskWrite_driver (hquiet : QuietWrite env count.toNat) :
    Post (diskWrite buf sector.toNat count.toNat) v fun r t => ∃ m',
      Converges (fun fuel => Disk.diskWrite env fuel buff sector count m) (r, m') ∧
        Behind env m' t ∧ m'.mem = m.mem := by
  obtain ⟨m', hconv, hmem', hdisks⟩ := Disk.diskWrite_converges (m := m) buff hd hr hchs hquiet
  have hfirst : buf 0 = sectorAt m.mem buff := by
    rw [hmem 0 (by omega)]
    congr 1
    simp
  simp only [diskWrite, post_bind, post_get, post_modify, post_pure]
  refine ⟨m', hconv, ?_, hmem'⟩
  rw [Behind, hdisks]
  funext s
  simp only [Drive.after, (hv _).1, hfirst, Disk.filled, true_and, Bool.false_eq_true, if_false]
  rw [hdisk]

end

end NctuCourses.Osdi.Fat

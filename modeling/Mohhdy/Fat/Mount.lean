import Mathlib.Tactic

/-! Mounting a FAT volume from its boot sector (`fat16_mount` of `src/kernel/fs/fat16.c`,
`fat32_mount` of `src/kernel/fs/fat32.c`), and whether the areas it computes fit the volume. -/
namespace Mohhdy.Fat
set_option autoImplicit false

abbrev BootSector := Fin 512 → UInt8

def le16 (b : BootSector) (i : Fin 512) : UInt16 := (b i).toUInt16 ||| (b (i + 1)).toUInt16 <<< 8

def le32 (b : BootSector) (i : Fin 512) : UInt32 := (le16 b i).toUInt32 ||| (le16 b (i + 2)).toUInt32 <<< 16

/-- The fields that are read from a boot sector. The size is the short one unless that is 0. -/
structure Bpb where
  bytesPerSector : UInt16
  spc : UInt8
  reserved : UInt16
  fats : UInt8
  (rootEntries fatSectors16 : UInt16)
  (total fatSectors32 rootCluster : UInt32)
  signature : UInt16

def bpb (b : BootSector) : Bpb where
  bytesPerSector := le16 b 11
  spc := b 13
  reserved := le16 b 14
  fats := b 16
  rootEntries := le16 b 17
  fatSectors16 := le16 b 22
  total := if (le16 b 19).toUInt32 = 0 then le32 b 32 else (le16 b 19).toUInt32
  fatSectors32 := le32 b 36
  rootCluster := le32 b 44
  signature := le16 b 510

/-! ## FAT16 -/

/-- What `fat16_mount` sets in a `fat16_volume_t`, without the reader and its window. -/
structure Fat16Volume where
  (baseLba totalSectors fatLba fatSectors rootLba rootSectors dataLba clusterCount : UInt32)
  (sectorsPerCluster fatCount : UInt8)
  rootEntries : UInt16

inductive MountErr where
  | unreadable | badBpb | badClusters | badSizes | badLayout | clusterRange
deriving DecidableEq

/-- `status_text` after a mount that failed; a bad layout leaves the old one. -/
def MountErr.statusText (old : String) : MountErr → String
  | .unreadable => "FAT16: secteur boot illisible"
  | .badBpb => "FAT16: BPB invalide"
  | .badClusters => "FAT16: clusters invalides"
  | .badSizes => "FAT16: tailles BPB invalides"
  | .badLayout => old
  | .clusterRange => "FAT16: nombre de clusters hors plage"

def Bpb.rootSectors (p : Bpb) : UInt32 := (p.rootEntries.toUInt32 * 32 + 511) >>> 9

def Bpb.rootLba16 (p : Bpb) (base : UInt32) : UInt32 :=
  base + p.reserved.toUInt32 + p.fats.toUInt32 * p.fatSectors16.toUInt32

def Bpb.dataLba16 (p : Bpb) (base : UInt32) : UInt32 := p.rootLba16 base + p.rootSectors

def Bpb.clusters16 (p : Bpb) (base : UInt32) : UInt32 :=
  (p.total - (p.dataLba16 base - base)) / p.spc.toUInt32

def Bpb.volume16 (p : Bpb) (base : UInt32) : Fat16Volume :=
  ⟨base, p.total, base + p.reserved.toUInt32, p.fatSectors16.toUInt32, p.rootLba16 base, p.rootSectors,
    p.dataLba16 base, p.clusters16 base, p.spc, p.fats, p.rootEntries⟩

def fat16Mount (readSector : UInt32 → Option BootSector) (base : UInt32) : Except MountErr Fat16Volume :=
  match readSector base with
  | none => .error .unreadable
  | some b =>
    let p := bpb b
    if p.bytesPerSector ≠ 512 ∨ p.spc = 0 ∨ p.reserved = 0 ∨ p.fats = 0 ∨ 2 < p.fats then .error .badBpb
    else if p.spc &&& (p.spc - 1) ≠ 0 ∨ 128 < p.spc then .error .badClusters
    else if p.total = 0 ∨ p.fatSectors16 = 0 ∨ p.rootEntries = 0 ∨ 512 < p.rootEntries then .error .badSizes
    else if 0xffffffff - 511 < p.rootEntries.toUInt32 * 32 then .error .badLayout
    else if p.dataLba16 base < base ∨ p.total ≤ p.dataLba16 base - base then .error .badLayout
    else if p.clusters16 base < 4085 ∨ 65525 < p.clusters16 base then .error .clusterRange
    else .ok (p.volume16 base)

/-! ## FAT32 -/

/-- What `fat32_mount` sets in a `fat32_volume_t`, without the reader and the writer. -/
structure Fat32Volume where
  (baseLba totalSectors fatLba fatSectors dataLba clusterCount rootCluster : UInt32)
  (sectorsPerCluster fatCount : UInt8)

def Bpb.fatArea (p : Bpb) : UInt32 := p.fats.toUInt32 * p.fatSectors32

def Bpb.dataSectors32 (p : Bpb) : UInt32 := p.total - p.reserved.toUInt32 - p.fatArea

def Bpb.clusters32 (p : Bpb) : UInt32 := p.dataSectors32 / p.spc.toUInt32

def Bpb.volume32 (p : Bpb) (base : UInt32) : Fat32Volume :=
  ⟨base, p.total, base + p.reserved.toUInt32, p.fatSectors32, base + p.reserved.toUInt32 + p.fatArea, p.clusters32,
    p.rootCluster &&& 0x0fffffff, p.spc, p.fats⟩

def fat32Mount (readSector : UInt32 → Option BootSector) (base : UInt32) : Option Fat32Volume :=
  match readSector base with
  | none => none
  | some b =>
    let p := bpb b
    if p.bytesPerSector ≠ 512 ∨ ¬(p.spc ≠ 0 ∧ p.spc &&& (p.spc - 1) = 0) ∨ 128 < p.spc then none
    else if p.reserved = 0 ∨ p.fats = 0 ∨ 2 < p.fats ∨ p.rootEntries ≠ 0 ∨ p.fatSectors16 ≠ 0 ∨ p.total = 0 ∨
        p.fatSectors32 = 0 then none
    else if p.signature ≠ 0xaa55 ∨ p.rootCluster < 2 then none
    else if p.dataSectors32 = 0 ∨ p.dataSectors32 < p.spc.toUInt32 then none
    else if p.clusters32 < 65525 ∨ 0x0ffffffe < p.clusters32 then none
    else some (p.volume32 base)

/-! ## Sound geometries -/

structure Geometry where
  (base reserved fatLba fatCount fatSectors rootLba rootEntries rootSectors dataLba spc clusters total : ℕ)
  rootCluster : Option ℕ

def Fat16Volume.geometry (v : Fat16Volume) (reserved : ℕ) : Geometry :=
  ⟨v.baseLba.toNat, reserved, v.fatLba.toNat, v.fatCount.toNat, v.fatSectors.toNat, v.rootLba.toNat,
    v.rootEntries.toNat, v.rootSectors.toNat, v.dataLba.toNat, v.sectorsPerCluster.toNat, v.clusterCount.toNat,
    v.totalSectors.toNat, none⟩

/-- The root directory of a FAT32 volume is a chain of clusters: no area lies before the data. -/
def Fat32Volume.geometry (v : Fat32Volume) (reserved : ℕ) : Geometry :=
  ⟨v.baseLba.toNat, reserved, v.fatLba.toNat, v.fatCount.toNat, v.fatSectors.toNat, v.dataLba.toNat, 0, 0,
    v.dataLba.toNat, v.sectorsPerCluster.toNat, v.clusterCount.toNat, v.totalSectors.toNat, some v.rootCluster.toNat⟩

/-- The areas follow each other, the root directory is an area for its entries or begins in a cluster
of the volume, and every cluster has its entry of `entry` bytes in each copy of the FAT and its sectors
in the volume. -/
structure Sound (entry : ℕ) (g : Geometry) : Prop where
  fat : g.fatLba = g.base + g.reserved
  root : g.rootLba = g.fatLba + g.fatCount * g.fatSectors
  data : g.dataLba = g.rootLba + g.rootSectors
  rootArea : g.rootSectors = (g.rootEntries * 32 + 511) / 512
  rootChain : ∀ c ∈ g.rootCluster, 2 ≤ c ∧ c ≤ g.clusters + 1
  inside : g.dataLba ≤ g.base + g.total
  entries : ∀ c, 2 ≤ c → c ≤ g.clusters + 1 → (c + 1) * entry ≤ 512 * g.fatSectors
  sectors : ∀ c, 2 ≤ c → c ≤ g.clusters + 1 → g.dataLba + (c - 1) * g.spc ≤ g.base + g.total

theorem Sound.mk_last {entry : ℕ} {g : Geometry} (hfat : g.fatLba = g.base + g.reserved)
    (hroot : g.rootLba = g.fatLba + g.fatCount * g.fatSectors) (hdata : g.dataLba = g.rootLba + g.rootSectors)
    (harea : g.rootSectors = (g.rootEntries * 32 + 511) / 512)
    (hchain : ∀ c ∈ g.rootCluster, 2 ≤ c ∧ c ≤ g.clusters + 1)
    (hentry : (g.clusters + 2) * entry ≤ 512 * g.fatSectors)
    (hsectors : g.dataLba + g.clusters * g.spc ≤ g.base + g.total) : Sound entry g where
  fat := hfat
  root := hroot
  data := hdata
  rootArea := harea
  rootChain := hchain
  inside := by omega
  entries := by
    intro c _ hc
    exact (Nat.mul_le_mul_right entry (by omega : c + 1 ≤ g.clusters + 2)).trans hentry
  sectors := by
    intro c _ hc
    have hle := Nat.mul_le_mul_right g.spc (by omega : c - 1 ≤ g.clusters)
    omega

def Bpb.room (p : Bpb) (used : ℕ) : ℕ := (p.total.toNat - used) / p.spc.toNat

def Bpb.used16 (p : Bpb) : ℕ := p.reserved.toNat + p.fats.toNat * p.fatSectors16.toNat + p.rootSectors.toNat

def Bpb.used32 (p : Bpb) : ℕ := p.reserved.toNat + p.fats.toNat * p.fatSectors32.toNat

def Bpb.fits16 (p : Bpb) : Prop := (p.room p.used16 + 2) * 2 ≤ 512 * p.fatSectors16.toNat

/-- No sum of the sizes leaves the volume or 32 bits, the FAT has an entry for the last cluster, and
the root directory begins in a cluster. -/
def Bpb.fits32 (p : Bpb) (base : UInt32) : Prop :=
  p.used32 ≤ p.total.toNat ∧ base.toNat + p.used32 < 2 ^ 32 ∧
  (p.room p.used32 + 2) * 4 ≤ 512 * p.fatSectors32.toNat ∧
  2 ≤ (p.rootCluster &&& 0x0fffffff).toNat ∧ (p.rootCluster &&& 0x0fffffff).toNat ≤ p.room p.used32 + 1

variable {read : UInt32 → Option BootSector}

theorem fat16Mount_ok {base : UInt32} {b : BootSector} {v : Fat16Volume}
    (hb : read base = some b) (h : fat16Mount read base = .ok v) :
    v = (bpb b).volume16 base ∧ (bpb b).fats ≤ 2 ∧ (bpb b).rootEntries ≤ 512 ∧ 4085 ≤ (bpb b).clusters16 base ∧
      base ≤ (bpb b).dataLba16 base ∧ (bpb b).dataLba16 base - base < (bpb b).total := by
  simp only [fat16Mount, hb] at h
  split_ifs at h with hbpb hspc hsizes hroot hlayout hrange
  simp only [not_or, UInt8.not_lt, UInt16.not_lt, UInt32.not_lt, UInt32.not_le] at hbpb hsizes hlayout hrange
  exact ⟨(Except.ok.inj h).symm, hbpb.2.2.2.2, hsizes.2.2.2, hrange.1, hlayout.1, hlayout.2⟩

theorem fat32Mount_ok {base : UInt32} {b : BootSector} {v : Fat32Volume}
    (hb : read base = some b) (h : fat32Mount read base = some v) :
    v = (bpb b).volume32 base ∧ 65525 ≤ (bpb b).clusters32 := by
  simp only [fat32Mount, hb] at h
  split_ifs at h with hbpb hsizes hsign hdata hrange
  simp only [not_or, UInt32.not_lt] at hrange
  exact ⟨(Option.some.inj h).symm, hrange.1⟩

section

variable {p : Bpb} {base : UInt32}

theorem rootSectors_toNat (p : Bpb) : p.rootSectors.toNat = (p.rootEntries.toNat * 32 + 511) / 512 := by
  have he := p.rootEntries.toNat_lt
  simp only [Bpb.rootSectors, UInt32.toNat_shiftRight, UInt32.toNat_add, UInt32.toNat_mul, UInt16.toNat_toUInt32,
    Nat.shiftRight_eq_div_pow]
  change (p.rootEntries.toNat * 32 % 2 ^ 32 + 511) % 2 ^ 32 / 2 ^ 9 = _
  omega

theorem dataLba16_toNat (hfats : p.fats ≤ 2) (hroot : p.rootEntries ≤ 512) (hbase : base ≤ p.dataLba16 base) :
    (base + p.reserved.toUInt32).toNat = base.toNat + p.reserved.toNat ∧
    (p.rootLba16 base).toNat = base.toNat + p.reserved.toNat + p.fats.toNat * p.fatSectors16.toNat ∧
    (p.dataLba16 base).toNat = (p.rootLba16 base).toNat + p.rootSectors.toNat := by
  have hf : p.fats.toNat ≤ 2 := UInt8.le_iff_toNat_le.mp hfats
  have hs := p.fatSectors16.toNat_lt
  have hr := p.reserved.toNat_lt
  have hprod : p.fats.toNat * p.fatSectors16.toNat ≤ 2 * 65535 := Nat.mul_le_mul hf (by omega)
  have he : p.rootEntries.toNat ≤ 512 := UInt16.le_iff_toNat_le.mp hroot
  have hsectors := rootSectors_toNat p
  have hle := UInt32.le_iff_toNat_le.mp hbase
  simp only [Bpb.dataLba16, Bpb.rootLba16, UInt32.toNat_add, UInt32.toNat_mul, UInt16.toNat_toUInt32,
    UInt8.toNat_toUInt32] at hle ⊢
  rw [Nat.mod_eq_of_lt (by omega : p.fats.toNat * p.fatSectors16.toNat < 2 ^ 32)] at hle ⊢
  have := base.toNat_lt
  omega

theorem sound16 (hfats : p.fats ≤ 2) (hroot : p.rootEntries ≤ 512) (hmin : 4085 ≤ p.clusters16 base)
    (hbase : base ≤ p.dataLba16 base) (htotal : p.dataLba16 base - base < p.total) :
    Sound 2 ((p.volume16 base).geometry p.reserved.toNat) ↔ p.fits16 := by
  obtain ⟨hfat, hrootLba, hdata⟩ := dataLba16_toNat hfats hroot hbase
  have hfit := UInt32.lt_iff_toNat_lt.mp htotal
  have hclusters : (p.clusters16 base).toNat = p.room p.used16 := by
    rw [Bpb.room, Bpb.used16, Bpb.clusters16, UInt32.toNat_div, UInt32.toNat_sub_of_le _ _ (UInt32.le_of_lt htotal),
      UInt32.toNat_sub_of_le _ _ hbase, hdata, hrootLba, UInt8.toNat_toUInt32]
    congr 2
    omega
  rw [UInt32.toNat_sub_of_le _ _ hbase, hdata, hrootLba] at hfit
  unfold Bpb.fits16
  rw [← hclusters]
  constructor
  · intro h
    have hpos : 4085 ≤ (p.clusters16 base).toNat := UInt32.le_iff_toNat_le.mp hmin
    simpa [Fat16Volume.geometry, Bpb.volume16] using h.entries ((p.clusters16 base).toNat + 1) (by omega) le_rfl
  · intro h
    refine Sound.mk_last hfat ?_ hdata (rootSectors_toNat p) (by rintro c ⟨⟩)
      (by simpa [Fat16Volume.geometry, Bpb.volume16] using h) ?_
    · simpa [Fat16Volume.geometry, Bpb.volume16, hfat] using hrootLba
    · have := Nat.div_mul_le_self (p.total.toNat - p.used16) p.spc.toNat
      change (p.dataLba16 base).toNat + (p.clusters16 base).toNat * p.spc.toNat ≤ base.toNat + p.total.toNat
      rw [hclusters, Bpb.room, hdata, hrootLba]
      unfold Bpb.used16 at this ⊢
      omega

theorem clusters32_toNat (hle : p.used32 ≤ p.total.toNat) : p.clusters32.toNat = p.room p.used32 := by
  have htotal := p.total.toNat_lt
  unfold Bpb.used32 at hle ⊢
  simp only [Bpb.room, Bpb.clusters32, Bpb.dataSectors32, Bpb.fatArea, UInt32.toNat_div, UInt32.toNat_sub,
    UInt32.toNat_mul, UInt16.toNat_toUInt32, UInt8.toNat_toUInt32]
  congr 1
  rw [Nat.mod_eq_of_lt (by omega : p.fats.toNat * p.fatSectors32.toNat < 2 ^ 32)]
  omega

theorem sound32 (hmin : 65525 ≤ p.clusters32) :
    Sound 4 ((p.volume32 base).geometry p.reserved.toNat) ↔ p.fits32 base := by
  have hpos : 65525 ≤ p.clusters32.toNat := UInt32.le_iff_toNat_le.mp hmin
  have hused : p.used32 = p.reserved.toNat + p.fats.toNat * p.fatSectors32.toNat := rfl
  constructor
  · intro h
    have hfat : (base + p.reserved.toUInt32).toNat = base.toNat + p.reserved.toNat := h.fat
    have hroot : (base + p.reserved.toUInt32 + p.fatArea).toNat =
        (base + p.reserved.toUInt32).toNat + p.fats.toNat * p.fatSectors32.toNat := h.root
    have hinside : (base + p.reserved.toUInt32 + p.fatArea).toNat ≤ base.toNat + p.total.toNat := h.inside
    have hlt := (base + p.reserved.toUInt32 + p.fatArea).toNat_lt
    have hlast := h.entries (p.clusters32.toNat + 1) (by omega) le_rfl
    have hle : p.used32 ≤ p.total.toNat := by omega
    refine ⟨hle, by omega, ?_⟩
    rw [← clusters32_toNat hle]
    exact ⟨hlast, h.rootChain _ rfl⟩
  · rintro ⟨hle, hbase, hlast⟩
    rw [← clusters32_toNat hle] at hlast
    have hfat : (base + p.reserved.toUInt32).toNat = base.toNat + p.reserved.toNat := by
      rw [UInt32.toNat_add, UInt16.toNat_toUInt32, Nat.mod_eq_of_lt (by omega)]
    have hdata : (base + p.reserved.toUInt32 + p.fatArea).toNat =
        base.toNat + p.reserved.toNat + p.fats.toNat * p.fatSectors32.toNat := by
      rw [UInt32.toNat_add, hfat, Bpb.fatArea, UInt32.toNat_mul, UInt8.toNat_toUInt32,
        Nat.mod_eq_of_lt (by omega : p.fats.toNat * p.fatSectors32.toNat < 2 ^ 32), Nat.mod_eq_of_lt (by omega)]
    refine Sound.mk_last hfat ?_ rfl (by simp [Fat32Volume.geometry]) ?_ hlast.1 ?_
    · simpa [Fat32Volume.geometry, Bpb.volume32, hfat] using hdata
    · rintro c ⟨⟩
      exact hlast.2
    · have := Nat.div_mul_le_self (p.total.toNat - p.used32) p.spc.toNat
      change (base + p.reserved.toUInt32 + p.fatArea).toNat + p.clusters32.toNat * p.spc.toNat ≤
        base.toNat + p.total.toNat
      rw [clusters32_toNat hle, Bpb.room, hdata]
      omega

end

/-- A boot sector that is mounted as FAT16 gives areas in order inside the volume, with an entry for
every cluster in each FAT, exactly if the FAT is long enough; one that is mounted as FAT32 exactly if
moreover the sizes have no carry and the root directory begins in one of the clusters. -/
theorem mount_sound (read : UInt32 → Option BootSector) (base : UInt32) (b : BootSector) (hb : read base = some b) :
    (∀ v, fat16Mount read base = .ok v → (Sound 2 (v.geometry (bpb b).reserved.toNat) ↔ (bpb b).fits16)) ∧
    (∀ v, fat32Mount read base = some v → (Sound 4 (v.geometry (bpb b).reserved.toNat) ↔ (bpb b).fits32 base)) := by
  constructor
  · intro v hv
    obtain ⟨rfl, hfats, hroot, hmin, hbase, htotal⟩ := fat16Mount_ok hb hv
    exact sound16 hfats hroot hmin hbase htotal
  · intro v hv
    obtain ⟨rfl, hmin⟩ := fat32Mount_ok hb hv
    exact sound32 hmin

def sectorOf (bytes : List (Fin 512 × UInt8)) : BootSector := fun i => (bytes.lookup i).getD 0

def shortFat : BootSector := sectorOf [(12, 2), (13, 1), (14, 1), (16, 1), (17, 16), (19, 136), (20, 19), (22, 1)]

def longFat : BootSector := sectorOf [(12, 2), (13, 1), (14, 1), (16, 1), (17, 16), (19, 136), (20, 19), (22, 20)]

def oneSector : BootSector :=
  sectorOf [(12, 2), (13, 16), (14, 32), (16, 1), (19, 1), (36, 1), (44, 2), (510, 85), (511, 170)]

def largeVolume (root : List (Fin 512 × UInt8)) : BootSector :=
  sectorOf ([(12, 2), (13, 1), (14, 32), (16, 1), (32, 112), (33, 17), (34, 1), (36, 38), (37, 2), (510, 85),
    (511, 170)] ++ root)

theorem mount_sound_longFat : let v := (bpb longFat).volume16 64
    let w := (bpb (largeVolume [(44, 2)])).volume32 64
    (fat16Mount (fun _ => some longFat) 64 = .ok v ∧ Sound 2 (v.geometry 1)) ∧
    fat32Mount (fun _ => some (largeVolume [(44, 2)])) 64 = some w ∧ Sound 4 (w.geometry 32) := by
  have h : fat16Mount (fun _ => some longFat) 64 = .ok ((bpb longFat).volume16 64) := by rfl
  have h' : fat32Mount (fun _ => some (largeVolume [(44, 2)])) 64 =
      some ((bpb (largeVolume [(44, 2)])).volume32 64) := by rfl
  exact ⟨⟨h, ((mount_sound (fun _ => some longFat) 64 longFat rfl).1 _ h).mpr (by unfold Bpb.fits16; decide +kernel)⟩,
    h', ((mount_sound (fun _ => some (largeVolume [(44, 2)])) 64 _ rfl).2 _ h').mpr
      (by unfold Bpb.fits32; decide +kernel)⟩

/-- The 4997 clusters of the first volume have no room in its FAT. The one sector of the second one is
mounted as 268435454 clusters, because the size of its data wraps. The root cluster of the third one is
tested before it is masked to 0. -/
theorem mount_unsound :
    (∃ v, fat16Mount (fun _ => some shortFat) 64 = .ok v ∧ v.clusterCount = 4997 ∧ ¬Sound 2 (v.geometry 1)) ∧
    (∃ v, fat32Mount (fun _ => some oneSector) 0 = some v ∧ v.clusterCount = 268435454 ∧ ¬Sound 4 (v.geometry 32)) ∧
    ∃ v, fat32Mount (fun _ => some (largeVolume [(47, 16)])) 0 = some v ∧ v.rootCluster = 0 ∧
      ¬Sound 4 (v.geometry 32) := by
  refine ⟨⟨(bpb shortFat).volume16 64, by rfl, by rfl, fun h => ?_⟩,
    ⟨(bpb oneSector).volume32 0, by rfl, by rfl, fun h => ?_⟩,
    ⟨(bpb (largeVolume [(47, 16)])).volume32 0, by rfl, by rfl, fun h => ?_⟩⟩
  · exact absurd (h.entries 4998 (by decide) (by decide +kernel)) (by decide +kernel)
  · exact absurd h.inside (by decide +kernel)
  · exact absurd (h.rootChain _ rfl).1 (by decide +kernel)

end Mohhdy.Fat

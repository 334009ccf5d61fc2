import CodalMicrobit.USBFlashConfig
import CodalMicrobit.Lemmas.Transactions

/-!
# The configuration, set and read back

The size and the visibility of the user file come back as they were set. Its name does only if it has seven characters and
an extension: the name is sent without its dot, in eight bytes padded with spaces and three more, and the dot is put back
over the last of the eight.
-/

namespace CodalMicrobit

namespace USBFlashManager

/-- What the chip stores of the user file. -/
structure UserFile where
  name : List UInt8
  size : List UInt8
  visibility : UInt8

variable {State : Type}

/-- The chip stores the fields it is sent and returns them unchanged, each behind the command. -/
structure Stores (chip : InterfaceChip State) (file : State → UserFile) : Prop where
  setName : ∀ s name, name.length = 11 →
    file (chip.transact s (MICROBIT_USB_FLASH_FILENAME_CMD :: name) 12).2 = { file s with name := name }
  setSize : ∀ s size, size.length = 4 →
    file (chip.transact s (MICROBIT_USB_FLASH_FILESIZE_CMD :: size) 2).2 = { file s with size := size }
  setVisibility : ∀ s v,
    file (chip.transact s [MICROBIT_USB_FLASH_VISIBILITY_CMD, v] 2).2 = { file s with visibility := v }
  persist : ∀ s, file (chip.transact s [MICROBIT_USB_FLASH_WRITE_CONFIG_CMD] 1).2 = file s
  getName : ∀ s, (chip.transact s [MICROBIT_USB_FLASH_FILENAME_CMD] 12).1 = MICROBIT_USB_FLASH_FILENAME_CMD :: (file s).name ∧
    file (chip.transact s [MICROBIT_USB_FLASH_FILENAME_CMD] 12).2 = file s
  getSize : ∀ s, (chip.transact s [MICROBIT_USB_FLASH_FILESIZE_CMD] 5).1 = MICROBIT_USB_FLASH_FILESIZE_CMD :: (file s).size ∧
    file (chip.transact s [MICROBIT_USB_FLASH_FILESIZE_CMD] 5).2 = file s
  getVisibility : ∀ s,
    (chip.transact s [MICROBIT_USB_FLASH_VISIBILITY_CMD] 2).1 = [MICROBIT_USB_FLASH_VISIBILITY_CMD, (file s).visibility]

/-- The name as it is sent: eight bytes and three. -/
def packed (fileName : List UInt8) : List UInt8 :=
  fileName.take (fileName.length - 4) ++ List.replicate (12 - fileName.length) ' '.toUInt8 ++
    fileName.drop (fileName.length - 3)

/-- The name as it comes back: the dot goes to the last of the eight bytes. -/
def unpacked (fileName : List UInt8) : List UInt8 := (packed fileName).set 7 '.'.toUInt8

/-- The checks a name has passed. -/
theorem of_validFileName {n : List UInt8} (h : validFileName n = true) :
    5 ≤ n.length ∧ n.length ≤ 12 ∧ n.getD (n.length - 4) 0 = '.'.toUInt8 := by
  simp only [validFileName, Bool.not_eq_true', Bool.or_eq_false_iff, decide_eq_false_iff_not, bne_eq_false_iff_eq] at h
  exact ⟨by omega, by omega, h.2⟩

/-- A file name takes 11 bytes. -/
theorem packed_length {n : List UInt8} (h5 : 5 ≤ n.length) (h12 : n.length ≤ 12) : (packed n).length = 11 := by
  simp only [packed, List.length_append, List.length_take, List.length_replicate, List.length_drop]
  omega

/-- The request behind its command is the packed name. -/
theorem fname_eq {n : List UInt8} (h5 : 5 ≤ n.length) (h12 : n.length ≤ 12) :
    fname n = MICROBIT_USB_FLASH_FILENAME_CMD :: packed n := by
  have hbase : (n.take (n.length - 4)).length = n.length - 4 := by
    rw [List.length_take]
    omega
  have hext : (n.drop (n.length - 3)).take 3 = n.drop (n.length - 3) :=
    List.take_of_length_le (by rw [List.length_drop]; omega)
  have hfirst : memcpy ((List.replicate 12 ' '.toUInt8).set 0 MICROBIT_USB_FLASH_FILENAME_CMD) 1 (n.take (n.length - 4)) =
      MICROBIT_USB_FLASH_FILENAME_CMD :: (n.take (n.length - 4) ++ List.replicate (15 - n.length) ' '.toUInt8) := by
    unfold memcpy
    rw [hbase, show List.replicate 12 ' '.toUInt8 = ' '.toUInt8 :: List.replicate 11 ' '.toUInt8 from rfl, List.set_cons_zero,
      List.take_succ_cons, List.take_zero, Nat.add_comm 1, List.drop_succ_cons, List.drop_replicate,
      show 11 - (n.length - 4) = 15 - n.length by omega]
    rfl
  have hpad : (n.take (n.length - 4) ++ List.replicate (15 - n.length) ' '.toUInt8).take 8 =
      n.take (n.length - 4) ++ List.replicate (12 - n.length) ' '.toUInt8 := by
    rw [List.take_append, hbase, List.take_of_length_le (by omega), List.take_replicate]
    congr 2
    omega
  have hrest : (n.take (n.length - 4) ++ List.replicate (15 - n.length) ' '.toUInt8).drop (8 + (n.drop (n.length - 3)).length) =
      [] := by
    refine List.drop_eq_nil_of_le ?_
    rw [List.length_append, hbase, List.length_replicate, List.length_drop]
    omega
  unfold fname
  dsimp only
  rw [hfirst, hext, memcpy, List.take_succ_cons, hpad, Nat.add_right_comm 8 1, List.drop_succ_cons, hrest, List.append_nil]
  rfl

/-- A name comes back as it was exactly if its base has seven characters. -/
theorem unpacked_eq_iff {n : List UInt8} (h : validFileName n = true) : unpacked n = n ↔ n.length = 11 := by
  obtain ⟨h5, h12, hdot⟩ := of_validFileName h
  refine ⟨fun heq => ?_, fun hlen => ?_⟩
  · rw [← heq, unpacked, List.length_set, packed_length h5 h12]
  · have h7 : 7 < n.length := by omega
    have hget : n[7] = '.'.toUInt8 := by
      rw [hlen, List.getD_eq_getElem n 0 (by omega)] at hdot
      exact hdot
    have hpacked : packed n = n.take 7 ++ ' '.toUInt8 :: n.drop 8 := by
      rw [packed, hlen, List.append_assoc]
      rfl
    rw [unpacked, hpacked, List.set_append_right _ _ (by rw [List.length_take]; omega), List.length_take, hlen]
    change n.take 7 ++ '.'.toUInt8 :: n.drop 8 = n
    rw [← hget, List.getElem_cons_drop, List.take_append_drop]

/-- A size of the storage comes back as it was. -/
theorem ntoh_htonl {n : Nat} (h : n < 2 ^ 32) : ntoh (htonl n) = n := by
  simp only [ntoh, htonl, List.foldl_cons, List.foldl_nil, UInt8.toNat_ofNat']
  omega

/-- A word takes four bytes. -/
theorem htonl_length (n : Nat) : (htonl n).length = 4 := rfl

variable {chip : InterfaceChip State} {file : State → UserFile}

/-- What the chip stores once a configuration is set. -/
theorem setConfiguration_stores (hs : Stores chip file) {g : Geometry} {m : Cached} {s : State}
    {config : MicroBitUSBFlashConfig} {persist : Bool}
    (hok : (setConfiguration chip g m s config persist).1 = .DEVICE_OK) :
    (0 < config.fileSize ∧ config.fileSize < 2 ^ 24) ∧ validFileName config.fileName = true ∧
      file (setConfiguration chip g m s config persist).2.2 =
        ⟨packed config.fileName, htonl config.fileSize.toNat, if config.visible then 1 else 0⟩ ∧
      (setConfiguration chip g m s config persist).2.1.loaded = m.loaded := by
  have hend := g.getFlashEnd_lt
  unfold Geometry.getFlashEnd at hend
  unfold setConfiguration at hok ⊢
  split at hok
  · nomatch hok
  · rename_i hsize
    split at hok
    · nomatch hok
    · rename_i hname
      have hvalid : validFileName config.fileName = true := by simpa using hname
      obtain ⟨h5, h12, -⟩ := of_validFileName hvalid
      rw [not_or, Int.not_le, ge_iff_le, Int.not_le] at hsize
      have hmod : (config.fileSize % 2 ^ 32).toNat = config.fileSize.toNat := by omega
      refine ⟨⟨hsize.1, by omega⟩, hvalid, ?_, ?_⟩
      · rw [if_neg (by omega), if_neg (by rw [hvalid]; nofun)]
        dsimp only
        have hset : ∀ s, file (chip.transact (chip.transact (chip.transact s (fname config.fileName) 12).2
            (fsize config.fileSize) 2).2 (fvisible config.visible) 2).2 =
              ⟨packed config.fileName, htonl config.fileSize.toNat, if config.visible then 1 else 0⟩ := by
          intro s
          rw [fvisible, hs.setVisibility, fsize, hmod, hs.setSize _ _ (htonl_length _), fname_eq h5 h12,
            hs.setName _ _ (packed_length h5 h12)]
        split
        · exact (hs.persist _).trans (hset s)
        · exact hset s
      · rw [if_neg (by omega), if_neg (by rw [hvalid]; nofun)]

/-- What is read from a chip that stores a configuration. -/
theorem getConfiguration_reads (hs : Stores chip file) (beyond : Nat → UInt8) {m : Cached} (hm : m.loaded = false) {s : State}
    {fileName : List UInt8} {fileSize : Int} {visible : Bool} (h5 : 5 ≤ fileName.length) (h12 : fileName.length ≤ 12)
    (hsize : 0 < fileSize ∧ fileSize < 2 ^ 24)
    (hfile : file s = ⟨packed fileName, htonl fileSize.toNat, if visible then 1 else 0⟩) :
    (getConfiguration chip beyond m s).1 = ⟨unpacked fileName, fileSize, visible⟩ := by
  obtain ⟨hn, hfn⟩ := hs.getName s
  obtain ⟨hz, hfz⟩ := hs.getSize (chip.transact s [MICROBIT_USB_FLASH_FILENAME_CMD] 12).2
  have hv := hs.getVisibility (chip.transact (chip.transact s [MICROBIT_USB_FLASH_FILENAME_CMD] 12).2
    [MICROBIT_USB_FLASH_FILESIZE_CMD] 5).2
  rw [hfz, hfn, hfile] at hv
  rw [hfn, hfile] at hz
  rw [hfile] at hn
  have hlen := packed_length h5 h12
  have hname : transactCommand chip s MICROBIT_USB_FLASH_FILENAME_CMD =
      chip.transact s [MICROBIT_USB_FLASH_FILENAME_CMD] 12 := rfl
  have hsz : ∀ s, transactCommand chip s MICROBIT_USB_FLASH_FILESIZE_CMD =
      chip.transact s [MICROBIT_USB_FLASH_FILESIZE_CMD] 5 := fun _ => rfl
  have hvis : ∀ s, transactCommand chip s MICROBIT_USB_FLASH_VISIBILITY_CMD =
      chip.transact s [MICROBIT_USB_FLASH_VISIBILITY_CMD] 2 := fun _ => rfl
  have hbytes : ((List.range 4).map fun k =>
      (MICROBIT_USB_FLASH_FILESIZE_CMD :: htonl fileSize.toNat).getD (k + 1) (beyond (k + 1))) = htonl fileSize.toNat := rfl
  have hint : int32 (ntoh (htonl fileSize.toNat)) = fileSize := by
    rw [ntoh_htonl (by omega), int32, if_pos (by omega)]
    omega
  unfold getConfiguration
  rw [if_neg (by rw [hm]; nofun), hname]
  dsimp only
  rw [hsz, hvis, hn, hz, hv, hbytes, hint, if_pos (by rw [List.length_cons, hlen]; decide)]
  have htake : (packed fileName).take 11 = packed fileName := List.take_of_length_le (Nat.le_of_eq hlen)
  simp only [List.drop_succ_cons, List.drop_zero, List.length_cons, Nat.add_sub_cancel, hlen, htake]
  cases visible <;> rfl

/-- A configuration that is accepted comes back from a chip that stores what it is sent and returns it unchanged, exactly if
its file name has a base of seven characters. -/
theorem configuration_round_trip_iff (hs : Stores chip file) (g : Geometry) (m : Cached) (hm : m.loaded = false) (s : State)
    (config : MicroBitUSBFlashConfig) (persist : Bool) (beyond : Nat → UInt8)
    (hok : (setConfiguration chip g m s config persist).1 = .DEVICE_OK) :
    (getConfiguration chip beyond (setConfiguration chip g m s config persist).2.1
        (setConfiguration chip g m s config persist).2.2).1 = config ↔ config.fileName.length = 11 := by
  obtain ⟨hsize, hvalid, hfile, hloaded⟩ := setConfiguration_stores hs hok
  obtain ⟨h5, h12, -⟩ := of_validFileName hvalid
  rw [getConfiguration_reads hs beyond (hloaded.trans hm) h5 h12 hsize hfile, ← unpacked_eq_iff hvalid]
  obtain ⟨fileName, fileSize, visible⟩ := config
  rw [MicroBitUSBFlashConfig.mk.injEq, and_iff_left ⟨rfl, rfl⟩]

/-- A chip that stores the user file and nothing else. -/
def storingChip : InterfaceChip UserFile where
  transact file request _ :=
    match request with
    | [command] =>
      if command = MICROBIT_USB_FLASH_FILENAME_CMD then (command :: file.name, file)
      else if command = MICROBIT_USB_FLASH_FILESIZE_CMD then (command :: file.size, file)
      else if command = MICROBIT_USB_FLASH_VISIBILITY_CMD then ([command, file.visibility], file)
      else ([command], file)
    | command :: value =>
      if command = MICROBIT_USB_FLASH_FILENAME_CMD then (command :: value, { file with name := value })
      else if command = MICROBIT_USB_FLASH_FILESIZE_CMD then ([command, 0], { file with size := value })
      else ([command, 0], { file with visibility := value.headD 0 })
    | [] => ([], file)

/-- The chip that stores what it is sent does so. -/
theorem storingChip_stores : Stores storingChip id where
  setName _ name h := by
    obtain ⟨b, rest, rfl⟩ := List.exists_cons_of_length_pos (h ▸ (by decide : 0 < 11))
    rfl
  setSize _ size h := by
    obtain ⟨b, rest, rfl⟩ := List.exists_cons_of_length_pos (h ▸ (by decide : 0 < 4))
    rfl
  setVisibility _ _ := rfl
  persist _ := rfl
  getName _ := ⟨rfl, rfl⟩
  getSize _ := ⟨rfl, rfl⟩
  getVisibility _ := rfl

/-- `configuration_round_trip_iff` for a log file with a base of seven characters, `MY_DATA.HTM`. -/
theorem configuration_round_trip_seven :
    (getConfiguration storingChip (fun _ => 0)
      (setConfiguration storingChip ⟨1024, 128, by decide, by decide⟩ ⟨⟨[], 0, false⟩, false⟩ ⟨[], [], 0⟩
        ⟨"MY_DATA.HTM".toList.map Char.toUInt8, 2048, true⟩ true).2.1
      (setConfiguration storingChip ⟨1024, 128, by decide, by decide⟩ ⟨⟨[], 0, false⟩, false⟩ ⟨[], [], 0⟩
        ⟨"MY_DATA.HTM".toList.map Char.toUInt8, 2048, true⟩ true).2.2).1 =
      ⟨"MY_DATA.HTM".toList.map Char.toUInt8, 2048, true⟩ :=
  (configuration_round_trip_iff storingChip_stores _ _ rfl _ _ _ _ (by decide)).mpr (by decide)

/-- A base of one character comes back padded with spaces, and of a base of eight the last character is lost. -/
theorem configuration_changes :
    (setConfiguration storingChip ⟨1024, 128, by decide, by decide⟩ ⟨⟨[], 0, false⟩, false⟩ ⟨[], [], 0⟩
        ⟨"A.TXT".toList.map Char.toUInt8, 1, true⟩ false).1 = .DEVICE_OK ∧
      (getConfiguration storingChip (fun _ => 0)
        (setConfiguration storingChip ⟨1024, 128, by decide, by decide⟩ ⟨⟨[], 0, false⟩, false⟩ ⟨[], [], 0⟩
          ⟨"A.TXT".toList.map Char.toUInt8, 1, true⟩ false).2.1
        (setConfiguration storingChip ⟨1024, 128, by decide, by decide⟩ ⟨⟨[], 0, false⟩, false⟩ ⟨[], [], 0⟩
          ⟨"A.TXT".toList.map Char.toUInt8, 1, true⟩ false).2.2).1.fileName = "A      .TXT".toList.map Char.toUInt8 ∧
      (getConfiguration storingChip (fun _ => 0)
        (setConfiguration storingChip ⟨1024, 128, by decide, by decide⟩ ⟨⟨[], 0, false⟩, false⟩ ⟨[], [], 0⟩
          ⟨"LOG_FILE.TXT".toList.map Char.toUInt8, 1, true⟩ false).2.1
        (setConfiguration storingChip ⟨1024, 128, by decide, by decide⟩ ⟨⟨[], 0, false⟩, false⟩ ⟨[], [], 0⟩
          ⟨"LOG_FILE.TXT".toList.map Char.toUInt8, 1, true⟩ false).2.2).1.fileName = "LOG_FIL.TXT".toList.map Char.toUInt8 := by
  refine ⟨by decide, by decide, by decide⟩

end USBFlashManager

end CodalMicrobit

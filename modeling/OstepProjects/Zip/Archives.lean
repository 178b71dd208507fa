/-
  OstepProjects/Zip/Archives.lean
  ===============================
  **Whichever program packs, `wunzip` unpacks.**

  `wzip`, `pzip2` and `pzip3` write one format.  An archive is what any of them writes for a
  list of files, the parallel ones in any interleaving of their threads (`ArchiveOf`).  It
  holds the records of the files, so `wunzip` prints the files of all archives that it is
  given, one behind the other (`unpacked`): records are whole, and nothing of one archive is
  left when the next one begins.
-/
import OstepProjects.Zip.Pzip2Runs
import OstepProjects.Zip.Pzip3Refinement
import OstepProjects.Zip.Records

namespace OstepProjects.Zip

open OstepProjects.RunLength OstepProjects.Transition

/-- The bytes are what a compressor writes for the files.  The conditions are the limits of the
    `int`s that count: a run for `wzip`, all bytes for `pzip2`, all pages for `pzip3`.
    `pzip2` must have drawn an index, and `pzip3` takes no empty file. -/
inductive ArchiveOf (files : List (List UInt8)) : List UInt8 → Prop
  | wzip (hne : files ≠ []) (hruns : ∀ r ∈ runs files.flatten, r.1 ≤ 2 ^ 31 - 1) :
    ArchiveOf files (wzip (files.map some)).stdout
  | pzip2 {n : Nat} {cfg : Pzip2.Config} {s : Pzip2.State n} (hfiles : cfg.files = files)
    (hne : files.flatten ≠ []) (hlen : files.flatten.length < 2 ^ 31)
    (hs : (Pzip2.system cfg n).Reachable s) (hret : s.AllReturned)
    (hdrawn : s.index_cthread ≠ 0) : ArchiveOf files (s.written.flatMap diwrite)
  | pzip3 {n : Nat} {cfg : Pzip3.Config} {s : Pzip3.State n} (hfiles : cfg.files = files)
    (hn : 0 < n) (hsize : 0 < cfg.page_size) (hfew : files ≠ []) (hne : ∀ f ∈ files, f ≠ [])
    (hs : (Pzip3.system cfg n).Reachable s) (hret : s.AllReturned)
    (hbytes : s.total_pages * cfg.page_size < 2 ^ 31)
    (hpages : s.total_pages ≤ Pzip3.outCapacity) :
    ArchiveOf files (s.printed.flatMap diwrite)

/-! ### What stands in an archive -/

/-- The pages of a run of `pzip3` that has ended, merged. -/
theorem printed_of_returned {n : Nat} {cfg : Pzip3.Config} {s : Pzip3.State n} (hn : 0 < n)
    (hsize : 0 < cfg.page_size) (hne : ∀ f ∈ cfg.files, f ≠ [])
    (hs : (Pzip3.system cfg n).Reachable s) (hret : s.AllReturned)
    (hbytes : s.total_pages * cfg.page_size < 2 ^ 31) :
    s.printed = (runs cfg.files.flatten).map record ∧ cfg.files.flatten.length < 2 ^ 31 := by
  have hpos : ∀ i < cfg.num_files, cfg.st_size i ≠ 0 := by
    intro i hi
    have hi' : i < cfg.files.length := hi
    have hmem : cfg.file i ∈ cfg.files := by simp [Pzip3.Config.file, hi']
    exact fun hzero => hne _ hmem (List.length_eq_zero_iff.mp hzero)
  obtain ⟨htotal, _, hout⟩ := (Pzip3.Reachable.dataInv hpos hs).complete hn hret
  obtain ⟨hflat, hnonempty⟩ := Pzip3.allPages_flatten hsize hne
  have hlen := Pzip3.length_flatten_le hsize hne
  have houts : (List.range s.total_pages).map (fun i => (s.out i).getD []) =
      ((Pzip3.allPages cfg).map Pzip3.Buffer.bytes).map RLECompress := by
    rw [htotal]
    apply List.ext_getElem
    · simp
    · intro k h1 h2
      have hk : k < (Pzip3.allPages cfg).length := by simpa using h1
      simp [hout, hk, Pzip3.compressPage, Pzip3.Buffer.bytes]
  rw [← htotal] at hlen
  refine ⟨?_, hlen.trans_lt hbytes⟩
  rw [Pzip3.State.printed, houts, printOutput_RLECompress, hflat]
  intro c hc
  obtain ⟨b, hb, rfl⟩ := List.mem_map.mp hc
  exact hnonempty b hb

/-- The records of short runs print the bytes again. -/
theorem records_print {files : List (List UInt8)}
    (hruns : ∀ r ∈ runs files.flatten, r.1 ≤ 2 ^ 31 - 1) :
    (records files).flatMap (fun r => printRun r.1 r.2) = files.flatten := by
  have hexpand : expand (runsFrom 0 0 files.flatten) = files.flatten := by
    rw [expand_runsFrom]
    rfl
  have hcopies : ∀ r ∈ runsFrom 0 0 files.flatten, printedCopies r.1 = r.1 := by
    simp only [printedCopies_eq_iff]
    exact (forall_mem_runsFrom_zero (fun n => n ≤ 2 ^ 31 - 1) (Nat.zero_le _) 0 _).mpr hruns
  rw [records_eq_emit, flatMap_printRun_emit,
    (flatMap_replicate_eq_expand printedCopies_le _).mpr hcopies, hexpand]

theorem runs_short {files : List (List UInt8)} (hlen : files.flatten.length < 2 ^ 31) :
    ∀ r ∈ runs files.flatten, r.1 ≤ 2 ^ 31 - 1 := by
  intro r hr
  have hrun := le_length_of_mem_runs hr
  omega

/-- **An archive is a sequence of whole records that print its files.** -/
theorem ArchiveOf.records {files : List (List UInt8)} {bytes : List UInt8}
    (h : ArchiveOf files bytes) : ∃ rs : List Record, bytes = rs.flatMap diwrite ∧
      rs.flatMap (fun r => printRun r.1 r.2) = files.flatten := by
  cases h with
  | wzip hne hruns =>
    refine ⟨Zip.records files, ?_, records_print hruns⟩
    rw [wzip_of_files hne]
  | @pzip2 n cfg s hfiles hne hlen hs hret hdrawn =>
    subst hfiles
    have hruns := runs_short hlen
    refine ⟨Zip.records cfg.files, ?_, records_print hruns⟩
    rw [(hret.written_of_drawn hs hlen hdrawn).2,
      records_eq_runs hne fun r hr => Nat.lt_of_le_pred (by decide) (hruns r hr)]
  | @pzip3 n cfg s hfiles hn hsize hfew hne hs hret hbytes hpages =>
    subst hfiles
    obtain ⟨hprinted, hlen⟩ := printed_of_returned hn hsize hne hs hret hbytes
    have hruns := runs_short hlen
    have hflat : cfg.files.flatten ≠ [] := by
      obtain ⟨f, fs, hf⟩ := List.exists_cons_of_ne_nil hfew
      have hfne := hne f (by rw [hf]; simp)
      rw [hf]
      simp [hfne]
    refine ⟨Zip.records cfg.files, ?_, records_print hruns⟩
    rw [hprinted, records_eq_runs hflat fun r hr => Nat.lt_of_le_pred (by decide) (hruns r hr)]

/-! ### Unpacking -/

theorem unzipAll_archives (char_read : UInt8)
    {archives : List (List (List UInt8) × List UInt8)}
    (hpacked : ∀ a ∈ archives, ArchiveOf a.1 a.2) :
    unzipAll char_read (archives.map Prod.snd) = (archives.map fun a => a.1.flatten).flatten := by
  induction archives generalizing char_read with
  | nil => rfl
  | cons a archives ih =>
    obtain ⟨rs, hbytes, hprint⟩ := (hpacked a List.mem_cons_self).records
    rw [List.map_cons, unzipAll, ih _ fun b hb => hpacked b (List.mem_cons_of_mem a hb), hbytes,
      unzipFile_records, hprint, List.map_cons, List.flatten_cons]

theorem outOfOrder_ends : ∃ s : Pzip3.State 2,
    (Pzip3.system Pzip3.threePages 2).Reachable s ∧ s.AllReturned ∧ s.total_pages = 3 := by
  have hend : ((Pzip3.system Pzip3.threePages 2).run (.start Pzip3.threePages 2)
      Pzip3.outOfOrder).map
        (fun s => (s.producer.pc, (s.consumers 0).pc, (s.consumers 1).pc, s.total_pages)) =
      some (.returned, .returned, .returned, 3) := by decide
  obtain ⟨s, hs, hfinal⟩ := Option.map_eq_some_iff.mp hend
  obtain ⟨hp, h0, h1, htotal⟩ : s.producer.pc = .returned ∧ (s.consumers 0).pc = .returned ∧
      (s.consumers 1).pc = .returned ∧ s.total_pages = 3 := by
    simpa only [Prod.mk.injEq] using hfinal
  refine ⟨s, System.Reaches.run .start hs, fun t => ?_, htotal⟩
  cases t with
  | producer => exact hp
  | consumer c =>
    match c with
    | 0 => exact h0
    | 1 => exact h1

end OstepProjects.Zip

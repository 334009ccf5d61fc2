import CodalMicrobit.Lemmas.Steady

/-!
# Erased pages and the cache

A page of the flash is erased behind the cache: `clear` empties the cache first, the journal only has the cached copy of the
page's first block erased, and the data pages are erased without a look at the cache. So what is cached of an erased page is
erased too as long as no other block of it is cached, with a byte that is not 0xFF, when a text is appended.
-/

namespace CodalMicrobit

open Nor Outcome FSCache

namespace Log

variable {g : Geometry}

/-- The address of the journal entry that is written next. -/
def nextEntry (s : LogState g) : Nat := nextHead { toLogState := s }

/-- No block but the first is cached, with a byte that is not erased, of a page that the next journal entry starts. -/
def FreshJournal (s : LogState g) : Prop :=
  g.getPageSize ∣ nextEntry s → ∀ b q, s.cache.Loaded b q → nextEntry s < b → b < nextEntry s + g.getPageSize →
    ∀ k, k < CONFIG_MICROBIT_LOG_CACHE_BLOCK_SIZE → q k = blank

/-- A log that is loaded has the layout of `clear`; and a text is appended with the end of the data inside the data area, and
if it is accepted, the cache holds nothing stale of the pages it enters, and nothing stale behind the first block of a page
of the journal that its entry starts. -/
def ErasesFresh : LogEvent g → Prop
  | .loading before => before.dataStart = g.dataStart ∧ before.logEnd = g.logEnd
  | .logging before text =>
    (g.dataStart ≤ before.dataEnd ∧ before.dataEnd ≤ g.logEnd) ∧ (before.dataEnd + text.length ≤ before.logEnd →
      FreshPages before text.length ∧
        ((before.dataEnd + text.length) / CONFIG_MICROBIT_LOG_CACHE_BLOCK_SIZE ≠
          before.dataEnd / CONFIG_MICROBIT_LOG_CACHE_BLOCK_SIZE → FreshJournal before))
  | _ => True

/-- A text whose erases are of fresh pages is appended as after a `clear`. -/
theorem ErasesFresh.asCleared {e : LogEvent g} (h : ErasesFresh e) : AsCleared e := by
  cases e with
  | loading before => exact h
  | logging before text => exact h.1
  | wrote | erased | storing => trivial

/-- After the page was erased, the cache holds nothing but erased blocks of it. -/
def ErasedClean : LogEvent g → Prop
  | .erased page after => after.Clean page
  | _ => True

/-! ## The parts of the calls -/

/-- What `format` erases is not in the cache. -/
theorem erasedClean_of_format {e : LogEvent g} (h : FormatEvent e) : ErasedClean e := by
  cases e with
  | erased page after => exact fun b q hq => absurd hq (h b q)
  | wrote | loading | storing | logging => trivial

/-- A page of the data is erased while the cache holds nothing stale of it. -/
theorem erasedClean_of_data {s : Log g} (h : s.Placed) {l : Nat} (hf : FreshPages s.toLogState l) {e : LogEvent g}
    (he : DataEvent s l e) : ErasedClean e := by
  cases e with
  | erased page after =>
    obtain ⟨hd, h1, h2, h3, hload⟩ := he
    intro b q hq hb1 hb2
    exact hf page hd h1 h2 (by rw [h.logEnd]; exact h3) b q (hload b q hq hb1) hb1 hb2
  | wrote | loading | storing | logging => trivial

/-- A page of the journal is erased: its first block is erased in the cache too, and the other ones are not cached with
anything else. -/
theorem erasedClean_of_journal (hg : g.Fits) {s s₁ : Log g} {l : Nat} {ops : List Op} (hp : s.Placed)
    (ha : Appended s s₁ l ops) (hf : FreshJournal s.toLogState) {e : LogEvent g} (he : JournalEvent s₁ e) :
    ErasedClean e := by
  cases e with
  | erased page after =>
    obtain ⟨rfl, hd, hload⟩ := he
    obtain ⟨-, -, hlt⟩ := nextHead_facts hg ha.placed
    have hend := add_le_of_dvd hd g.page_dvd_dataStart hlt
    have hnext : nextEntry s.toLogState = s₁.nextHead := by
      unfold nextEntry nextHead
      rw [ha.dataOnly.journalHead]
    rw [← hnext] at hd hload hend ⊢
    intro b q hq hb1 hb2
    rcases hload b q hq with ⟨-, hblank⟩ | ⟨hne, hq⟩
    · exact hblank
    · rcases ha.loaded b q hq with hq | ht
      · exact hf hd b q hq (by omega) hb2
      · -- a block of the data
        have := le_of_touches ht hg.block_dvd_dataStart hp.le_dataEnd
        omega
  | wrote | loading | storing | logging => trivial

/-- What storing headings adds to the record. -/
theorem storeHeadings_history (s : Log g) (h : ManagedString) : ∃ ops₁ ops₂, (s.storeHeadings h).history =
    s.history ++ [.storing s.toLogState h, .wrote .heading ops₁, .wrote .heading ops₂] := by
  unfold storeHeadings
  dsimp only
  split
  · exact ⟨_, _, (List.append_assoc _ _ _).trans (List.append_assoc s.history _ _)⟩
  · exact ⟨_, _, (List.append_assoc _ _ _).trans (List.append_assoc s.history _ _)⟩

/-- `invalidate` adds clean erases only. -/
theorem invalidate_history (s : Log g) : ∃ es, s.invalidate.history = s.history ++ es ∧ ∀ e ∈ es, ErasedClean e := by
  have hrec := isPresent_record s
  unfold invalidate
  split
  · rename_i u hp
    rw [hp] at hrec
    rw [← hrec.history]
    refine ⟨_, rfl, fun e he => ?_⟩
    rw [List.mem_singleton.mp he]
    trivial
  · rename_i u hp
    rw [hp] at hrec
    exact ⟨[], hrec.history.trans (List.append_nil _).symm, List.forall_mem_nil _⟩

/-- Appending a text. -/
theorem appendText_clean (hg : g.Fits) {s t : Log g} (h : s.Placed) {data : List UInt8} {code : ErrorCode}
    (ht : s.appendText data = .ok (code, t)) (hc : ErasesFresh (.logging s.toLogState data : LogEvent g)) :
    Gives ErasedClean s t := by
  obtain ⟨-, hc⟩ := hc
  rw [h.logEnd] at hc
  obtain ⟨s₀, hs₀⟩ : ∃ s₀, s₀ = s.note (.logging s.toLogState data) := ⟨_, rfl⟩
  have hr : RamOnly s s₀ := hs₀ ▸ RamOnly.note s _
  have h₀ := hr.placed h
  have hhist₀ : s₀.history = s.history ++ [.logging s.toLogState data] := hs₀ ▸ rfl
  -- what is recorded goes behind the note of the text
  have hgives : ∀ {u : Log g}, (∃ es, u.history = s₀.history ++ es ∧ ∀ e ∈ es, ErasedClean e) → Gives ErasedClean s u := by
    rintro u ⟨es, hes, hev⟩
    refine .of_history (.logging s.toLogState data :: es) ?_ fun e he => ?_
    · rw [hes, hhist₀, List.append_assoc]
      rfl
    · rcases List.mem_cons.mp he with rfl | he
      · trivial
      · exact hev e he
  rcases appendText_parts hg h ht with ⟨-, rfl⟩ | ⟨hroom, serial, ops, s₁, ha, hcases⟩
  · obtain ⟨ops, hrf⟩ := refuse_refused hg h₀
    obtain ⟨es, hes, hev⟩ := hrf.events
    rw [← hs₀]
    refine hgives (u := s₀.refuse.notify) ⟨es, hes, fun e he => ?_⟩
    rw [hev e he]
    trivial
  · obtain ⟨hfresh, hjournal⟩ := hc hroom
    have hp' : Placed { s.note (.logging s.toLogState data) with serial } := RamOnly.placed (s := s) rfl h
    obtain ⟨es, hes, hev⟩ := ha.events
    have hes₁ : s₁.history = s₀.history ++ es := hs₀ ▸ hes
    have hev₁ : ∀ e ∈ es, ErasedClean e := fun e he => erasedClean_of_data hp' hfresh (hev e he)
    rcases hcases with ⟨-, rfl⟩ | ⟨hne, rfl⟩
    · exact hgives (u := s₁.notify) ⟨es, hes₁, hev₁⟩
    · obtain ⟨_, hj⟩ := writeJournal_journaled hg ha.placed
      obtain ⟨es', hes', hev'⟩ := hj.events
      rw [ha.dataEnd] at hne
      have hfresh' := hjournal hne
      refine hgives (u := s₁.writeJournal.notify) ⟨es ++ es', ?_, fun e he => ?_⟩
      · change s₁.writeJournal.history = _
        rw [hes', hes₁, List.append_assoc]
      · rcases List.mem_append.mp he with he | he
        · exact hev₁ e he
        · exact erasedClean_of_journal hg hp' ha hfresh' (hev' e he)

/-- Every step adds clean erases only. -/
theorem erasedClean_maintains (hg : g.Fits) : Maintains (g := g) ErasesFresh ErasedClean KeepsSteady where
  ramOnly h hr := h.ramOnly hg hr
  isPresent h hi := h.isPresent hg hi
  load h hi hp ht hc := ⟨(h.load hg hi hp ht hc.asCleared).1, trivial⟩
  format {s} _ fullErase := by
    obtain ⟨-, es, hes, hev⟩ := format_fresh hg s fullErase
    exact ⟨.format hg s fullErase, .of_history es hes fun e he => erasedClean_of_format (hev e he)⟩
  invalidate {s} h := by
    obtain ⟨es, hes, hev⟩ := invalidate_history s
    exact ⟨h.invalidate hg, .of_history es hes hev⟩
  storeHeadings {s} h hi fields _ := by
    obtain ⟨ops₁, ops₂, hes⟩ := storeHeadings_history s (csvLine fields)
    refine ⟨(h.storeHeadings hi _).1, .of_history _ hes fun e he => ?_⟩
    simp only [List.mem_cons, List.not_mem_nil, or_false] at he
    rcases he with rfl | rfl | rfl <;> trivial
  appendText {s t data code} h hi ht hc :=
    ⟨h.appendText hg hi ht hc.asCleared, appendText_clean hg ((h.ready hi).placed hc.1.1 hc.1.2) ht hc⟩
  reboot {s} _ := .reboot s

/-- Erased pages. In every run of calls and reboots from the start of the device in which the logs that are loaded have the
layout of `clear`, texts are appended with the end of the data inside the data area, and when a text is accepted the cache
holds nothing stale of the pages it enters and nothing stale behind the first block of a page of the journal it starts:
whenever a page was erased, the cache holds nothing but 0xFF of it. -/
theorem erased_page_clean (hg : g.Fits) (flash : Flash g) (header : Nat → UInt8) (calls : List LogOp) (s : Log g)
    (hs : (new flash header).run calls = .ok s) (hc : ∀ e ∈ s.history, ErasesFresh e) :
    ∀ page after, .erased page after ∈ s.history → after.Clean page := by
  obtain ⟨-, hall, -⟩ := (erasedClean_maintains hg).run (.new flash header) hs hc
  exact fun page after he => hall _ he

/-- `erased_page_clean` for a text of 300 bytes on an erased storage with pages of 256 bytes: it enters one page. -/
theorem erased_page_clean_one :
    ∃ s, (new (blankFlash sixteenPages) fun _ => 0).run [.clear false, .logString (List.replicate 300 'a'.toUInt8)] = .ok s ∧
      ∀ page after, .erased page after ∈ s.history → after.Clean page := by
  have hrun : (match (new (blankFlash sixteenPages) fun _ => 0).run
        [.clear false, .logString (List.replicate 300 'a'.toUInt8)] with
      | .ok s => s.history.all fun e =>
        match e with
        | .loading _ => false
        | .logging before text => decide (before.dataEnd = 3328 ∧ text.length = 300 ∧ before.journalHead = 2304 ∧
            ∀ i, (before.cache.cache i).page.isSome → (before.cache.cache i).address < 3584)
        | .wrote _ _ | .erased _ _ | .storing _ _ => true
      | .error _ => false) = true := by
    decide +kernel
  cases hs : (new (blankFlash sixteenPages) fun _ => 0).run
      [.clear false, .logString (List.replicate 300 'a'.toUInt8)] with
  | error e =>
    rw [hs] at hrun
    cases hrun
  | ok s =>
    simp only [hs, List.all_eq_true] at hrun
    refine ⟨s, rfl, erased_page_clean sixteenPages_fits (blankFlash sixteenPages) (fun _ => 0) _ s hs fun e he => ?_⟩
    have hcond := hrun e he
    cases e with
    | loading before => cases hcond
    | logging before text =>
      obtain ⟨hend, hlen, hhead, hcache⟩ := of_decide_eq_true hcond
      refine ⟨by rw [hend]; decide, fun _ => ⟨fun page hd h1 h2 _ b q hq hb _ => ?_, fun _ hd => ?_⟩⟩
      · -- no block behind the first data page is cached
        obtain ⟨i, ha, hp⟩ := hq
        have hlt := hcache i (by rw [hp]; rfl)
        have h256 : (256 : Nat) ∣ page := hd
        omega
      · -- the next journal entry is on the same page as the one before
        exact absurd hd (by unfold nextEntry nextHead; dsimp only; rw [hhead]; decide)
    | wrote | erased | storing => trivial

/-- On a storage that holds zeroes, a text of 509 bytes is refused, which caches the block of the FULL indicator; one of 257
bytes is accepted, and enters the page of that block, which is erased while the cache keeps the zeroes. -/
theorem erased_page_stale :
    ∃ s page after, (new ⟨fun _ => 0, []⟩ fun _ => 0 : Log sixteenPages).run [.clear false,
        .logString (List.replicate 509 'a'.toUInt8), .logString (List.replicate 257 'a'.toUInt8)] = .ok s ∧
      .erased page after ∈ s.history ∧ ¬after.Clean page := by
  have hrun : (match (new ⟨fun _ => 0, []⟩ fun _ => 0 : Log sixteenPages).run [.clear false,
        .logString (List.replicate 509 'a'.toUInt8), .logString (List.replicate 257 'a'.toUInt8)] with
      | .ok s => s.history.any fun e =>
        match e with
        | .erased page after => decide (page = 3584 ∧ ∃ i, (after.cache i).address = 3584 ∧
            ∃ q ∈ (after.cache i).page, q 0 = 0)
        | _ => false
      | .error _ => false) = true := by
    decide +kernel
  cases hs : (new ⟨fun _ => 0, []⟩ fun _ => 0 : Log sixteenPages).run [.clear false,
      .logString (List.replicate 509 'a'.toUInt8), .logString (List.replicate 257 'a'.toUInt8)] with
  | error e =>
    rw [hs] at hrun
    nomatch hrun
  | ok s =>
    simp only [hs, List.any_eq_true] at hrun
    obtain ⟨e, he, hcond⟩ := hrun
    cases e with
    | erased page after =>
      obtain ⟨rfl, i, ha, q, hq, h0⟩ := of_decide_eq_true hcond
      refine ⟨s, 3584, after, rfl, he, fun hclean => ?_⟩
      have hblank := hclean 3584 q ⟨i, ha, hq⟩ (Nat.le_refl _) (by decide) 0 (by decide)
      rw [h0] at hblank
      exact absurd hblank (by decide)
    | wrote | loading | storing | logging => nomatch hcond

end Log

end CodalMicrobit

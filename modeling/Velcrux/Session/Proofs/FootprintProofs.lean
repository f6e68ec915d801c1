import Velcrux.Session.Footprint
import Velcrux.Session.Proofs.DeltaProofs

/-!
# The staging file keeps to the declared size exactly when the client does

The staging file only grows, so its last content decides. On the delta path the writes are the
chunks found for the positions of the query, in a session the frames that are not dropped.
-/

namespace Velcrux.Session

open Protocol State Storage Sync Chunking Cutting Transfer ByteFile Streams List DeltaSource ChunkBitmap LocalInventory

variable {H : HashFn} {src : DeltaSource}
variable {hash : Hash} {e : ChunkExtent} {s : UploadSession}

theorem bounds_of_mem_extentsFrom {off : ℕ} {ps : List Bytes}
    (h : (hash, e) ∈ extentsFrom H off ps) :
    (∃ p ∈ ps, p.length = e.length) ∧ e.offset + e.length ≤ off + ps.flatten.length := by
  induction ps generalizing off with
  | nil => simp [extentsFrom] at h
  | cons p ps ih =>
    have hlen : (ChunkDesc.of H p).length = p.length := by
      unfold ChunkDesc.of
      split_ifs <;> rfl
    have hlater : (hash, e) ∈ extentsFrom H (off + p.length) ps →
        (∃ q ∈ p :: ps, q.length = e.length) ∧
          e.offset + e.length ≤ off + (p :: ps).flatten.length := by
      intro hmem
      obtain ⟨⟨q, hq, hql⟩, hle⟩ := ih hmem
      refine ⟨⟨q, mem_cons_of_mem _ hq, hql⟩, ?_⟩
      simp only [flatten_cons, length_append]
      omega
    rw [extentsFrom, hlen] at h
    cases hd : (ChunkDesc.of H p).hash with
    | none =>
      rw [hd] at h
      exact hlater h
    | some x =>
      rw [hd] at h
      rcases mem_cons.mp h with heq | hmem
      · obtain ⟨-, rfl⟩ := Prod.mk.inj heq
        refine ⟨⟨p, mem_cons_self, rfl⟩, ?_⟩
        simp only [flatten_cons, length_append]
        omega
      · exact hlater hmem

theorem mem_chunks_of_lookup {inv : LocalInventory}
    (h : inv.lookup hash = some e) : (hash, e) ∈ inv.chunks := by
  obtain ⟨before, after, heq, -⟩ := List.lookup_eq_some_iff.mp h
  rw [heq]
  exact mem_append_right _ mem_cons_self

theorem extentOf_bounds (h : src.extentOf H hash = some e) :
    ∃ content, src.existing = some content ∧ e.length ≤ deltaChunkSize ∧
      e.offset + e.length ≤ content.length := by
  obtain ⟨inv, hinv, hlook⟩ := Option.bind_eq_some_iff.mp h
  unfold inventory at hinv
  cases hex : src.existing with
  | none =>
    rw [hex] at hinv
    cases hinv
  | some content =>
    rw [hex] at hinv
    dsimp only at hinv
    have hread := @chunkReader_eq .fixed deltaParams (64 * 1024) (by decide) (by decide)
      (buffers (64 * 1024) content)
    rw [buffers_flatten (by decide)] at hread
    rw [fromFile, hread] at hinv
    obtain rfl := Option.some.inj hinv
    have hmem := mem_chunks_of_lookup hlook
    rw [map_snd_layOut] at hmem
    obtain ⟨⟨p, hp, hpl⟩, hle⟩ := bounds_of_mem_extentsFrom hmem
    rw [pieces_flatten, Nat.zero_add] at hle
    have htarget := Chunker.length_le_limit hp
    exact ⟨content, rfl, hpl ▸ htarget, hle⟩

section Answer

variable {n i : ℕ} {hs : List Hash}

theorem underflow_answerQuery (inv : Option LocalInventory) :
    (answerQuery src inv n i hs).underflow = false ↔
      ∀ k < hs.length, (i + k) * deltaChunkSize ≤ n := by
  have hd : deltaChunkSize = 64 * 1024 := rfl
  induction hs generalizing i with
  | nil => simp [answerQuery]
  | cons x hs ih =>
    have hhead : (answerQuery src inv n i (x :: hs)).underflow =
        (decide (n < i * (64 * 1024)) || (answerQuery src inv n (i + 1) hs).underflow) := by
      rw [answerQuery]
      cases inv.bind fun inv => inv.lookup x with
      | some e => rfl
      | none => split_ifs <;> rfl
    rw [hhead, Bool.or_eq_false_iff, decide_eq_false_iff_not,
      and_congr_right_iff.mpr fun _ => ih]
    constructor
    · rintro ⟨h0, h⟩ k hk
      cases k with
      | zero => simpa [hd] using h0
      | succ k =>
        have hk' := h k (by simpa using hk)
        rwa [Nat.add_right_comm] at hk'
    · intro h
      refine ⟨by simpa [hd] using h 0 (by simp), fun k hk => ?_⟩
      have hk' := h (k + 1) (by simpa using hk)
      rwa [← Nat.add_assoc, Nat.add_right_comm] at hk'

end Answer

/-! ## What is copied -/

section Prestage

variable {n : ℕ} {query : List Hash}

theorem staging_copyMatching (existing : Bytes) (p : Prestaged) (ms : List (ℕ × ChunkExtent)) :
    (ms.foldl (copyMatching existing) p).staging =
      writeAll p.staging (ms.map fun m => (m.1, slice existing m.2.offset m.2.length)) := by
  induction ms generalizing p with
  | nil => rfl
  | cons m ms ih => exact ih _

theorem staging_copyStored (p : Prestaged) (ms : List (ℕ × Hash × ℕ)) :
    (ms.foldl (copyStored src) p).staging =
      writeAll p.staging (ms.map fun m => (m.1, (src.storeContent m.2.1).getD [])) := by
  induction ms generalizing p with
  | nil => rfl
  | cons m ms ih =>
    have hstep : (copyStored src p m).staging =
        writeAt p.staging m.1 ((src.storeContent m.2.1).getD []) := by
      unfold copyStored
      cases src.storeContent m.2.1 with
      | some content => rfl
      | none => exact (writeAt_nil _ _).symm
    rw [foldl_cons, ih, map_cons, writeAll_cons, hstep]

theorem length_le_copyMatching (existing : Bytes) (p : Prestaged) (m : ℕ × ChunkExtent)
    (h : (copyMatching existing p m).staging.length ≤ n) : p.staging.length ≤ n :=
  (length_le_writeAt _ _ _).trans h

theorem length_le_copyStored (p : Prestaged) (m : ℕ × Hash × ℕ)
    (h : (copyStored src p m).staging.length ≤ n) : p.staging.length ≤ n := by
  have hstep : (copyStored src p m).staging = _ := staging_copyStored p [m]
  rw [hstep] at h
  exact (length_le_writeAt _ _ _).trans h

variable (answer : QueryAnswer)

theorem prestageMoments_le_iff (hm : src.existing = none → answer.matching = []) :
    (∀ content ∈ prestageMoments src n answer, content.length ≤ n) ↔
      (∀ m ∈ answer.matching,
        EndsWithin n (m.1, slice (src.existing.getD []) m.2.offset m.2.length)) ∧
      ∀ m ∈ answer.matchingStore, EndsWithin n (m.1, (src.storeContent m.2.1).getD []) := by
  have hstored : ∀ p : Prestaged,
      (∀ q ∈ answer.matchingStore.scanl (copyStored src) p, q.staging.length ≤ n) ↔
        p.staging.length ≤ n ∧
          ∀ m ∈ answer.matchingStore, EndsWithin n (m.1, (src.storeContent m.2.1).getD []) := by
    intro p
    rw [forall_mem_scanl_iff
      (fun q m => length_le_copyStored q m), staging_copyStored, length_writeAll_le_iff,
      forall_mem_map]
  unfold prestageMoments
  cases hex : src.existing with
  | none =>
    rw [hm hex]
    simp only [singleton_append, forall_mem_map, forall_mem_cons, hstored,
      length_replicate, le_refl, true_and, not_mem_nil, false_implies, implies_true]
  | some existing =>
    simp only [forall_mem_map, forall_mem_append, hstored, Option.getD_some]
    rw [forall_mem_scanl_iff
      (fun q m => length_le_copyMatching existing q m), staging_copyMatching,
      length_writeAll_le_iff, forall_mem_map]
    simp only [length_replicate, le_refl, true_and]
    tauto

theorem prestage_mem_moments : (prestage src n answer).staging ∈ prestageMoments src n answer := by
  refine mem_map_of_mem (mem_append_right _ ?_)
  exact foldl_mem_scanl _ _ _

theorem reused_of_extent (h : src.extentOf H hash = some e) :
    src.reused H hash = some (slice (src.existing.getD []) e.offset e.length) := by
  unfold reused
  rw [h]

theorem reused_of_store (h : src.extentOf H hash = none) (hc : src.storeContains hash = true) :
    src.reused H hash = some ((src.storeContent hash).getD []) := by
  unfold reused
  rw [h]
  exact if_pos hc

theorem reused_cases {content : Bytes} (h : src.reused H hash = some content) :
    (∃ e, src.extentOf H hash = some e ∧
        content = slice (src.existing.getD []) e.offset e.length) ∨
      src.extentOf H hash = none ∧ src.storeContains hash = true ∧
        content = (src.storeContent hash).getD [] := by
  unfold reused at h
  cases he : src.extentOf H hash with
  | some e =>
    rw [he] at h
    exact .inl ⟨e, rfl, (Option.some.inj h).symm⟩
  | none =>
    rw [he] at h
    split_ifs at h with hc
    exact .inr ⟨rfl, hc, (Option.some.inj h).symm⟩

theorem matching_eq_nil (query : List Hash) (h : src.existing = none) :
    (answerQuery src (src.inventory H) n 0 query).matching = [] := by
  refine eq_nil_iff_forall_not_mem.mpr ?_
  rintro ⟨dst, e⟩ hm
  obtain ⟨k, hk, -, hl⟩ := mem_matching.mp hm
  obtain ⟨content, hex, -⟩ : ∃ content, src.existing = some content ∧ _ := extentOf_bounds hl
  rw [h] at hex
  cases hex

theorem queryFits_iff :
    ((answerQuery src (src.inventory H) n 0 query).underflow = false ∧
        ∀ content ∈ prestageMoments src n (answerQuery src (src.inventory H) n 0 query),
          content.length ≤ n) ↔
      src.QueryFits H n query := by
  rw [underflow_answerQuery, prestageMoments_le_iff _ (matching_eq_nil query)]
  constructor
  · rintro ⟨hpos, hmatch, hstore⟩
    refine ⟨fun i hi => by simpa using hpos i hi, ?_⟩
    intro i hash content hi hr
    obtain ⟨hk, rfl⟩ := List.getElem?_eq_some_iff.mp hi
    rcases reused_cases hr with ⟨e, he, rfl⟩ | ⟨he, hc, rfl⟩
    · have hfit := hmatch _ (mem_matching.mpr ⟨i, hk, rfl, he⟩)
      rwa [Nat.zero_add] at hfit
    · have hfit := hstore _ (mem_matchingStore.mpr ⟨i, hk, rfl, rfl, hc, rfl, he⟩)
      rwa [Nat.zero_add] at hfit
  · intro h
    refine ⟨fun k hk => by simpa using h.position k hk, ?_, ?_⟩
    · rintro ⟨dst, e⟩ hm
      obtain ⟨k, hk, rfl, hl⟩ := mem_matching.mp hm
      rw [Nat.zero_add]
      exact h.piece k _ _ (List.getElem?_eq_getElem hk) (reused_of_extent hl)
    · rintro ⟨dst, hash, len⟩ hm
      obtain ⟨k, hk, rfl, rfl, hc, -, hl⟩ := mem_matchingStore.mp hm
      rw [Nat.zero_add]
      exact h.piece k _ _ (List.getElem?_eq_getElem hk) (reused_of_store hl hc)

/-! ## What is counted -/

def marks : List (ℕ × ℕ) :=
  answer.matching.map (fun m => (m.1 / deltaChunkSize, m.2.length)) ++
    answer.matchingStore.map fun m => (m.1 / deltaChunkSize, m.2.2)

theorem bitmap_copyMatching (existing : Bytes) (p : Prestaged) (ms : List (ℕ × ChunkExtent)) :
    (ms.foldl (copyMatching existing) p).bitmap =
      p.bitmap.markAll (ms.map fun m => (m.1 / deltaChunkSize, m.2.length)) := by
  induction ms generalizing p with
  | nil => rfl
  | cons m ms ih => exact ih _

theorem bitmap_copyStored (p : Prestaged) (ms : List (ℕ × Hash × ℕ)) :
    (ms.foldl (copyStored src) p).bitmap =
      p.bitmap.markAll (ms.map fun m => (m.1 / deltaChunkSize, m.2.2)) := by
  induction ms generalizing p with
  | nil => rfl
  | cons m ms ih => exact ih _

theorem bitmap_prestage (hm : src.existing = none → answer.matching = []) :
    (prestage src n answer).bitmap = new.markAll (marks answer) := by
  unfold prestage marks markAll
  rw [foldl_append]
  cases hex : src.existing with
  | none =>
    rw [hm hex]
    exact bitmap_copyStored _ _
  | some existing =>
    have hfirst := bitmap_copyMatching existing ⟨List.replicate n 0, .new⟩ answer.matching
    unfold markAll at hfirst
    rw [← hfirst]
    exact bitmap_copyStored _ _

theorem set_prestage :
    (prestage src n (answerQuery src (src.inventory H) n 0 query)).bitmap.set =
      src.foundSlots H query := by
  have hdiv : ∀ k, k * (64 * 1024) / (64 * 1024) = k := fun k =>
    Nat.mul_div_cancel _ (by decide)
  have hd : deltaChunkSize = 64 * 1024 := rfl
  rw [bitmap_prestage _ (matching_eq_nil query)]
  ext i
  rw [mem_set_markAll, foundSlots, Finset.mem_filter, Finset.mem_range]
  constructor
  · rintro (h | ⟨m, hm, rfl⟩)
    · exact absurd h (Finset.notMem_empty _)
    · rcases mem_append.mp hm with hm | hm
      · obtain ⟨⟨dst, e⟩, hmem, rfl⟩ := mem_map.mp hm
        obtain ⟨k, hk, rfl, hl⟩ := mem_matching.mp hmem
        have hr : src.reused H query[k] = _ := reused_of_extent hl
        simp [hd, hdiv, hk, hr]
      · obtain ⟨⟨dst, hash, len⟩, hmem, rfl⟩ := mem_map.mp hm
        obtain ⟨k, hk, rfl, rfl, hc, -, hl⟩ := mem_matchingStore.mp hmem
        have hr : src.reused H query[k] = _ := reused_of_store hl hc
        simp [hd, hdiv, hk, hr]
  · rintro ⟨hi, hfound⟩
    right
    rw [List.getElem?_eq_getElem hi] at hfound
    obtain ⟨content, hr⟩ := Option.isSome_iff_exists.mp hfound
    rcases reused_cases hr with ⟨e, he, -⟩ | ⟨he, hc, -⟩
    · have hmem : _ ∈ (answerQuery src (src.inventory H) n 0 query).matching :=
        mem_matching.mpr ⟨i, hi, rfl, he⟩
      exact ⟨_, mem_append_left _ (mem_map_of_mem hmem), by simp [hd, hdiv]⟩
    · have hmem : _ ∈ (answerQuery src (src.inventory H) n 0 query).matchingStore :=
        mem_matchingStore.mpr ⟨i, hi, rfl, rfl, hc, rfl, he⟩
      exact ⟨_, mem_append_right _ (mem_map_of_mem hmem), by simp [hd, hdiv]⟩

theorem wrappingSub_of_le {a b : ℕ} (hb : b ≤ a) (ha : a ≤ u64Max) : wrappingSub a b = a - b := by
  have hmax : u64Max = 2 ^ 64 - 1 := rfl
  unfold wrappingSub
  omega

theorem bytesCompleted_prestage (hn : n ≤ u64Max)
    (hpos : ∀ i < query.length, i * deltaChunkSize ≤ n) :
    (prestage src n (answerQuery src (src.inventory H) n 0 query)).bitmap.bytesCompleted =
      min (∑ i ∈ src.foundSlots H query, src.countedLen H n query i) u64Max := by
  have hdiv : ∀ k, k * (64 * 1024) / (64 * 1024) = k := fun k =>
    Nat.mul_div_cancel _ (by decide)
  have hd : deltaChunkSize = 64 * 1024 := rfl
  have hnew : new.Totals (src.countedLen H n query) := by
    simp [ChunkBitmap.Totals, new]
  have hmarks : ∀ m ∈ marks (answerQuery src (src.inventory H) n 0 query),
      m.2 = src.countedLen H n query m.1 := by
    intro m hm
    rcases mem_append.mp hm with hm | hm
    · obtain ⟨⟨dst, e⟩, hmem, rfl⟩ := mem_map.mp hm
      obtain ⟨k, hk, rfl, hl⟩ := mem_matching.mp hmem
      have he : src.extentOf H query[k] = some e := hl
      simp [countedLen, hd, hdiv, hk, he]
    · obtain ⟨⟨dst, hash, len⟩, hmem, rfl⟩ := mem_map.mp hm
      obtain ⟨k, hk, rfl, rfl, -, rfl, hl⟩ := mem_matchingStore.mp hmem
      have he : src.extentOf H query[k] = none := hl
      have hsub := wrappingSub_of_le (hpos k hk) hn
      rw [hd] at hsub
      simp [countedLen, hd, hdiv, hk, he, hsub, slotLen]
  have htotal := hnew.markAll hmarks
  rw [← bitmap_prestage _ (matching_eq_nil query)] at htotal
  rw [htotal, set_prestage]

theorem sum_countedLen_le (h : src.QueryFits H n query) :
    ∑ i ∈ src.foundSlots H query, src.countedLen H n query i ≤ n := by
  refine (Finset.sum_le_sum fun i hi => ?_).trans
    (sum_slotLen_le deltaChunkSize n (src.foundSlots H query))
  rw [foundSlots, Finset.mem_filter, Finset.mem_range] at hi
  have hget := List.getElem?_eq_getElem hi.1
  unfold countedLen
  rw [hget, Option.bind_some]
  cases he : src.extentOf H query[i] with
  | none => exact le_refl _
  | some e =>
    show e.length ≤ slotLen deltaChunkSize n i
    obtain ⟨content, hex, hslot, hin⟩ := extentOf_bounds he
    have hfit := h.piece i _ _ hget (reused_of_extent he)
    have hlen : (slice content e.offset e.length).length = e.length := length_slice_of_le hin
    rw [hex, Option.getD_some] at hfit
    simp only [EndsWithin, ← length_eq_zero_iff, hlen] at hfit
    unfold slotLen
    omega

end Prestage

/-! ## Receiving data -/

theorem length_writeFrame_le_iff {n : ℕ} {r : Receiver} {c : ReceivedChunk} :
    (if c.isHole then r.staging else writeAt r.staging c.offset c.data).length ≤ n ↔
      r.staging.length ≤ n ∧ (c.isHole = true ∨ EndsWithin n (c.offset, c.data)) := by
  by_cases hc : c.isHole = true
  · simp [hc]
  · rw [if_neg hc]
    have hw := length_writeAt_le_iff (f := r.staging) (p := (c.offset, c.data)) (n := n)
    rw [hw]
    simp [hc]

theorem framesFit_cons {n chunkSize : ℕ} {isStreaming : Bool} {marked : Finset ℕ}
    {c : ReceivedChunk} {cs : List ReceivedChunk} :
    FramesFit n chunkSize isStreaming marked (c :: cs) ↔
      if isStreaming = false ∧ slotOf chunkSize c ∈ marked then
        FramesFit n chunkSize isStreaming marked cs
      else
        (c.isHole = true ∨ EndsWithin n (c.offset, c.data)) ∧
          FramesFit n chunkSize isStreaming
            (if isStreaming then marked else insert (slotOf chunkSize c) marked) cs := by
  unfold FramesFit writtenFrames
  cases isStreaming with
  | true => simp
  | false =>
    by_cases hc : slotOf chunkSize c ∈ marked
    · simp only [Bool.false_eq_true, if_false, true_and, hc, if_true, keepFirst]
      rw [if_pos (show c.offset / chunkSize ∈ marked from hc)]
    · simp only [Bool.false_eq_true, if_false, true_and, hc, keepFirst]
      rw [if_neg (show c.offset / chunkSize ∉ marked from hc), forall_mem_cons]
      rfl

theorem length_receiveAll_le_iff {n chunkSize : ℕ} {isStreaming : Bool} {r : Receiver}
    {cs : List ReceivedChunk} :
    (receiveAll chunkSize isStreaming r cs).staging.length ≤ n ↔
      r.staging.length ≤ n ∧ FramesFit n chunkSize isStreaming r.bitmap.set cs := by
  induction cs generalizing r with
  | nil =>
    have hnil : FramesFit n chunkSize isStreaming r.bitmap.set [] := by
      cases isStreaming <;> simp [FramesFit, writtenFrames, keepFirst]
    simp [receiveAll, hnil]
  | cons c cs ih =>
    rw [receiveAll_cons, ih, framesFit_cons]
    by_cases hdrop : isStreaming = false ∧ slotOf chunkSize c ∈ r.bitmap.set
    · obtain ⟨rfl, hmem⟩ := hdrop
      rw [receiveChunk_marked hmem, if_pos ⟨rfl, hmem⟩]
    · rw [if_neg hdrop, ← and_assoc, ← length_writeFrame_le_iff]
      cases isStreaming with
      | true => rfl
      | false =>
        have hnew : slotOf chunkSize c ∉ r.bitmap.set := fun hmem => hdrop ⟨rfl, hmem⟩
        rw [receiveChunk_unmarked hnew, set_markComplete]
        rfl

theorem sessionMoments_le_iff {streams : List Bytes} {order : List ReceivedChunk} {n : ℕ} :
    (∀ content ∈ sessionMoments s streams order, content.length ≤ n) ↔
      ∀ content, s.openStaging streams = .ok content →
        content.length ≤ n ∧ FramesFit n s.chunkSize s.isStreaming s.startBitmap.set order := by
  unfold sessionMoments
  cases hopen : s.openStaging streams with
  | error e => simp
  | ok content =>
    have hback : ∀ (r : Receiver) (c : ReceivedChunk),
        (receiveChunk s.chunkSize s.isStreaming r c).staging.length ≤ n →
          r.staging.length ≤ n := by
      intro r c h
      have hone : (receiveAll s.chunkSize s.isStreaming r [c]).staging.length ≤ n := h
      exact (length_receiveAll_le_iff.mp hone).1
    simp only [forall_mem_map]
    rw [forall_mem_scanl_iff hback]
    refine (length_receiveAll_le_iff).trans ?_
    constructor
    · rintro h _ ⟨⟩
      exact h
    · intro h
      exact h content rfl

theorem openStaging_eq_ok_iff {streams : List Bytes} {content : Bytes} :
    s.openStaging streams = .ok content ↔
      (s.backend.spaceCheck s.avail s.expectedSize = .ok () ∧
        (1 < s.parallelStreams ∨
          (readPreamble s.transferId (streams.headD [])).toOption.isSome = true)) ∧
      content = s.backend.openedContent s.existing s.expectedSize s.resumed := by
  have hopened : s.backend.openStagingResumable s.avail s.existing s.expectedSize s.resumed =
      .ok content ↔ s.backend.spaceCheck s.avail s.expectedSize = .ok () ∧
        content = s.backend.openedContent s.existing s.expectedSize s.resumed := by
    unfold LocalBackend.openStagingResumable
    cases s.backend.spaceCheck s.avail s.expectedSize with
    | error e => simp [Except.map]
    | ok x => simp [Except.map, eq_comm]
  unfold UploadSession.openStaging
  split_ifs with hpar
  · tauto
  · cases readPreamble s.transferId (streams.headD []) with
    | error e => simp [hpar, Except.toOption]
    | ok rest =>
      tauto

theorem length_openedContent_le {be : LocalBackend} {existing : Option Bytes} {n : ℕ}
    {resumed : Bool} (hprior : ∀ content ∈ existing, content.length ≤ n) :
    (be.openedContent existing n resumed).length ≤ n := by
  have htaken : (if resumed then existing.getD [] else []).length ≤ n := by
    cases resumed with
    | false => exact Nat.zero_le _
    | true =>
      cases existing with
      | none => exact Nat.zero_le _
      | some content => exact hprior content rfl
  unfold LocalBackend.openedContent
  split_ifs at htaken ⊢ <;> simp_all

/-! ## The whole exchange -/

namespace UploadRequest

variable {u : UploadRequest} {c : ClientSide} {query : List Hash}

theorem fileHash_ne_zero_of_delta {frame : AfterHint} (h : u.path H frame = .delta query) :
    u.fileHash ≠ .zero := by
  intro hz
  unfold UploadRequest.path at h
  rw [if_pos hz] at h
  cases h

theorem sessionMoments_request_le_iff {begin : Wire.TransferBegin}
    (hbe : s.backend = u.backend) (hav : s.avail = u.avail) (hid : s.transferId = u.transferId)
    (hsize : s.expectedSize = u.fileSize) (hpar : s.parallelStreams = begin.streams.toNat)
    (hprior : ∀ content ∈ s.existing, content.length ≤ u.fileSize) :
    (∀ content ∈ sessionMoments s c.streams c.order, content.length ≤ u.fileSize) ↔
      (u.Opens c begin →
        FramesFit u.fileSize s.chunkSize s.isStreaming s.startBitmap.set c.order) := by
  rw [sessionMoments_le_iff]
  simp only [openStaging_eq_ok_iff, hbe, hav, hid, hsize, hpar]
  constructor
  · intro h hopens
    exact (h _ ⟨hopens, rfl⟩).2
  · rintro h content ⟨hopens, rfl⟩
    exact ⟨length_openedContent_le hprior, h hopens⟩

theorem moments_le_iff :
    (∀ content ∈ u.moments H c, content.length ≤ u.fileSize) ↔
      (∀ content ∈ u.staging, content.length ≤ u.fileSize) ∧
      (∀ query, u.path H c.afterHint = .delta query →
        ∀ content ∈ prestageMoments u.src u.fileSize (u.answer H query),
          content.length ≤ u.fileSize) ∧
      ∀ s, u.session H c = some s →
        ∀ content ∈ sessionMoments s c.streams c.order, content.length ≤ u.fileSize := by
  unfold moments
  simp only [forall_mem_append, Option.mem_toList, and_assoc]
  refine and_congr_right fun _ => and_congr ?_ ?_
  · cases u.path H c.afterHint with
    | delta query =>
      constructor
      · rintro h _ ⟨⟩
        exact h
      · intro h
        exact h query rfl
    | identical | plain | broken => simp
  · cases u.session H c with
    | none => simp
    | some s =>
      constructor
      · rintro h _ ⟨⟩
        exact h
      · intro h
        exact h s rfl

theorem staysWithin_plain (hpath : u.path H c.afterHint = .plain) :
    u.StaysWithin H c ↔ u.KeepsToSize H c := by
  have hsession : (∀ content ∈ u.staging, content.length ≤ u.fileSize) →
      ((∀ s, u.session H c = some s →
          ∀ content ∈ sessionMoments s c.streams c.order, content.length ≤ u.fileSize) ↔
        ∀ begin ∈ c.begin, u.Opens c begin → begin.transferId = u.transferId →
          FramesFit u.fileSize m3ChunkSize (u.fileHash = .zero)
            (if u.resumed then u.stored.set else ∅) c.order) := by
    intro hprior
    unfold session
    rw [hpath]
    cases c.begin with
    | none => simp
    | some begin =>
      have hstart : (u.plainSession begin).startBitmap.set =
          if u.resumed then u.stored.set else ∅ := by
        exact apply_ite ChunkBitmap.set _ _ _
      have hiff := sessionMoments_request_le_iff (c := c) (s := u.plainSession begin)
        rfl rfl rfl rfl rfl hprior
      rw [hstart] at hiff
      by_cases hid : begin.transferId = u.transferId
      · simp only [hid, if_true]
        constructor
        · rintro h _ ⟨⟩ hopens -
          exact hiff.mp (h _ rfl) hopens
        · rintro h _ ⟨⟩
          exact hiff.mpr fun hopens => h begin rfl hopens hid
      · simp [hid]
  have hplan : u.plannedReusable H c = some u.bytesReusable := by
    unfold plannedReusable
    rw [hpath]
  have hexact : u.underflows H c = false := by
    unfold underflows
    rw [hpath]
  unfold KeepsToSize
  rw [hpath]
  constructor
  · rintro ⟨hstaging, hle, -⟩
    obtain ⟨hprior, -, hs⟩ := moments_le_iff.mp hstaging
    exact ⟨hprior, hle _ hplan, (hsession hprior).mp hs⟩
  · rintro ⟨hprior, hle, hframes⟩
    refine ⟨moments_le_iff.mpr ⟨hprior, ?_, (hsession hprior).mpr hframes⟩, ?_, hexact⟩
    · intro query hq
      rw [hpath] at hq
      cases hq
    · intro n hn
      rw [hplan] at hn
      exact (Option.some.inj hn) ▸ hle

theorem staysWithin_delta (hpath : u.path H c.afterHint = .delta query) :
    u.StaysWithin H c ↔ u.KeepsToSize H c := by
  have hzero := fileHash_ne_zero_of_delta hpath
  have hplan : u.plannedReusable H c = some (u.prestaged H query).bitmap.bytesCompleted := by
    unfold plannedReusable
    rw [hpath]
  have hexact : u.underflows H c = (u.answer H query).underflow := by
    unfold underflows
    rw [hpath]
  -- for a query that fits, the plan counts what is found, and that is at most the declared size
  have hcount : u.src.QueryFits H u.fileSize query →
      (u.prestaged H query).bitmap.bytesCompleted =
          ∑ i ∈ u.src.foundSlots H query, u.src.countedLen H u.fileSize query i ∧
        ∑ i ∈ u.src.foundSlots H query, u.src.countedLen H u.fileSize query i ≤ u.fileSize := by
    intro hfits
    have hle := sum_countedLen_le hfits
    have hbytes : (u.prestaged H query).bitmap.bytesCompleted = _ :=
      bytesCompleted_prestage u.size_le hfits.position
    exact ⟨hbytes.trans (min_eq_left (hle.trans u.size_le)), hle⟩
  have hsession : u.src.QueryFits H u.fileSize query →
      ((∀ s, u.session H c = some s →
          ∀ content ∈ sessionMoments s c.streams c.order, content.length ≤ u.fileSize) ↔
        ∀ begin ∈ c.begin, u.Opens c begin →
          ∑ i ∈ u.src.foundSlots H query, u.src.countedLen H u.fileSize query i < u.fileSize →
          FramesFit u.fileSize deltaChunkSize false (u.src.foundSlots H query) c.order) := by
    intro hfits
    obtain ⟨hbytes, -⟩ := hcount hfits
    have hcopied := (queryFits_iff.mpr hfits).2 _ (prestage_mem_moments _)
    unfold session
    rw [hpath]
    cases c.begin with
    | none => simp
    | some begin =>
      have hiff := sessionMoments_request_le_iff (c := c)
        (s := u.deltaSession H query begin) rfl rfl rfl rfl rfl
        (by rintro _ ⟨⟩; exact hcopied)
      have hstart : (u.deltaSession H query begin).startBitmap.set = u.src.foundSlots H query :=
        set_prestage
      have hstream : (u.deltaSession H query begin).isStreaming = false := decide_eq_false hzero
      rw [hstart, hstream] at hiff
      simp only [hbytes]
      by_cases hlt : ∑ i ∈ u.src.foundSlots H query, u.src.countedLen H u.fileSize query i <
          u.fileSize
      · rw [if_neg (by omega)]
        constructor
        · rintro h _ ⟨⟩ hopens -
          exact hiff.mp (h _ rfl) hopens
        · rintro h _ ⟨⟩
          exact hiff.mpr fun hopens => h begin rfl hopens hlt
      · rw [if_pos (by omega)]
        simp [hlt]
  unfold KeepsToSize
  rw [hpath]
  constructor
  · rintro ⟨hstaging, -, hnowrap⟩
    obtain ⟨hprior, hcopies, hs⟩ := moments_le_iff.mp hstaging
    have hfits : u.src.QueryFits H u.fileSize query :=
      queryFits_iff.mp ⟨hexact ▸ hnowrap, hcopies query hpath⟩
    exact ⟨hprior, hfits, (hsession hfits).mp hs⟩
  · rintro ⟨hprior, hfits, hframes⟩
    obtain ⟨hnowrap, hcopies⟩ := queryFits_iff.mpr hfits
    obtain ⟨hbytes, hle⟩ := hcount hfits
    refine ⟨moments_le_iff.mpr ⟨hprior, ?_, (hsession hfits).mpr hframes⟩, ?_, hexact.trans hnowrap⟩
    · intro q hq
      obtain rfl : query = q := by
        rw [hpath] at hq
        exact UploadPath.delta.inj hq
      exact hcopies
    · intro n hn
      rw [hplan, hbytes] at hn
      exact (Option.some.inj hn) ▸ hle

theorem staysWithin_idle
    (hpath : u.path H c.afterHint = .identical ∨ u.path H c.afterHint = .broken) :
    u.StaysWithin H c ↔ u.KeepsToSize H c := by
  have hsession : u.session H c = none := by
    unfold session
    rcases hpath with h | h <;> rw [h] <;> cases c.begin <;> rfl
  have hmoments : (∀ content ∈ u.moments H c, content.length ≤ u.fileSize) ↔
      ∀ content ∈ u.staging, content.length ≤ u.fileSize := by
    rw [moments_le_iff, hsession]
    rcases hpath with h | h <;> simp [h]
  have hplan : ∀ n ∈ u.plannedReusable H c, n ≤ u.fileSize := by
    unfold plannedReusable
    rcases hpath with h | h <;> rw [h]
    · rintro _ ⟨⟩
      exact le_refl _
    · rintro _ ⟨⟩
  have hexact : u.underflows H c = false := by
    unfold underflows
    rcases hpath with h | h <;> rw [h]
  constructor
  · intro h
    refine ⟨hmoments.mp h.staging, ?_⟩
    rcases hpath with h | h <;> rw [h] <;> trivial
  · intro h
    exact ⟨hmoments.mpr h.1, hplan, hexact⟩

/-- **The staging file keeps to the declared size exactly when the client and the server's files
do.** -/
theorem staysWithin_iff (u : UploadRequest) (H : HashFn) (c : ClientSide) :
    u.StaysWithin H c ↔ u.KeepsToSize H c := by
  cases hpath : u.path H c.afterHint with
  | identical => exact staysWithin_idle (.inl hpath)
  | broken => exact staysWithin_idle (.inr hpath)
  | delta query => exact staysWithin_delta hpath
  | plain => exact staysWithin_plain hpath

def oneByteRequest : UploadRequest where
  backend := ⟨0, false⟩
  quota := none
  free := some 1
  avail := some 1
  transferId := .zero
  fileSize := 1
  fileHash := .repeated 1
  resumed := false
  bytesReusable := 0
  staging := none
  stored := .new
  src := ⟨none, none, none⟩
  size_pos := Nat.one_pos
  size_le := (by decide : 0 < u64Max)
  checked := by decide

def overrunStream : Bytes :=
  streamPreamble oneByteRequest.transferId 1 ++ SentChunk.frame sizeHash ⟨1, [7], none⟩

def overrunClient : ClientSide where
  afterHint := .other
  begin := some ⟨oneByteRequest.transferId, 1⟩
  streams := [overrunStream]
  order := (readDataStream sizeHash idleCompressor oneByteRequest.transferId overrunStream).1

/-- The frame is accepted, and the staging file grows to two bytes. -/
theorem not_staysWithin_overrun :
    (∃ s, oneByteRequest.session sizeHash overrunClient = some s ∧
      s.Order sizeHash idleCompressor overrunClient.streams overrunClient.order) ∧
    ¬ oneByteRequest.StaysWithin sizeHash overrunClient := by
  constructor
  · have horder := merges_flatten
      [(readDataStream sizeHash idleCompressor oneByteRequest.transferId overrunStream).1]
    exact ⟨oneByteRequest.plainSession ⟨oneByteRequest.transferId, 1⟩, rfl, horder⟩
  · intro h
    have hmem : [0, 7] ∈ oneByteRequest.moments sizeHash overrunClient := by decide
    exact absurd (h.staging _ hmem) (by decide)

end UploadRequest

end Velcrux.Session

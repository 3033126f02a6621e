import PgRelay.Recording

/-!
# The response preview

`_read_response_preview` asks for the chunks of a body one after another and keeps the part of each that
still fits. The limit need not fall between two chunks, nor between two characters.

The loop is written with its variables here, and with a note of what it had collected whenever it asked
for another chunk.
-/

namespace PgRelay

open PyText

/-- The variables of the loop, and what had been collected at each request for a chunk. -/
structure PreviewLoop where
  chunks : List (List UInt8)
  size : ℕ
  requests : List (List UInt8)

/-- Before the first request. -/
def PreviewLoop.init : PreviewLoop := ⟨[], 0, []⟩

/-- `b"".join(chunks)`. -/
def PreviewLoop.joined (l : PreviewLoop) : List UInt8 := l.chunks.flatten

/-- The loop asks for the next chunk. -/
def PreviewLoop.request (l : PreviewLoop) : PreviewLoop := { l with requests := l.requests ++ [l.joined] }

/-- The loop receives a chunk. -/
def PreviewLoop.receive (l : PreviewLoop) (chunk : List UInt8) : PreviewLoop :=
  let remaining := responsePreviewBytes - l.size
  let chunkPreview := chunk.take remaining
  { l with chunks := l.chunks ++ [chunkPreview], size := l.size + chunkPreview.length }

/-- The loop over the chunks that are left; the last request is told that there are none. -/
def PreviewLoop.run (l : PreviewLoop) : List (List UInt8) → PreviewLoop
  | [] => l.request
  | chunk :: chunks =>
    let next := l.request.receive chunk
    if responsePreviewBytes ≤ next.size then next else next.run chunks

/-- What the loop has collected of the bytes that it has received. -/
structure PreviewLoop.Sound (l : PreviewLoop) (received : List UInt8) : Prop where
  joined : l.joined = received.take responsePreviewBytes
  size : l.size = l.joined.length
  requests : ∀ collected ∈ l.requests, collected.length < responsePreviewBytes

/-- Before the first chunk nothing has been read. -/
theorem PreviewLoop.sound_init : PreviewLoop.init.Sound [] :=
  ⟨rfl, rfl, fun _ h => absurd h List.not_mem_nil⟩

variable {l : PreviewLoop} {received : List UInt8}

/-- The loop only asks for a chunk before it has collected the limit. -/
theorem PreviewLoop.Sound.request (h : l.Sound received) (hsize : l.size < responsePreviewBytes) :
    l.request.Sound received := by
  refine ⟨h.joined, h.size, fun collected hmem => ?_⟩
  rcases List.mem_append.mp hmem with hmem | hmem
  · exact h.requests collected hmem
  · rw [List.mem_singleton.mp hmem, ← h.size]
    exact hsize

/-- The part of a chunk that is kept completes what has been collected, up to the limit. -/
theorem PreviewLoop.Sound.receive (h : l.Sound received) (hsize : l.size < responsePreviewBytes)
    (chunk : List UInt8) : (l.receive chunk).Sound (received ++ chunk) := by
  have hlength : received.length = l.size := by
    have hjoined := congrArg List.length h.joined
    rw [← h.size, List.length_take] at hjoined
    omega
  have hjoined : (l.receive chunk).joined = l.joined ++ chunk.take (responsePreviewBytes - l.size) := by
    simp [PreviewLoop.receive, PreviewLoop.joined]
  refine ⟨?_, ?_, h.requests⟩
  · rw [hjoined, h.joined, List.take_append, hlength]
  · rw [hjoined, List.length_append, ← h.size]
    rfl

/-- When the loop ends, it has collected the limit or the whole body. -/
theorem PreviewLoop.Sound.run (h : l.Sound received) (hsize : l.size < responsePreviewBytes)
    (chunks : List (List UInt8)) : (l.run chunks).Sound (received ++ chunks.flatten) := by
  induction chunks generalizing l received with
  | nil => simpa [PreviewLoop.run] using h.request hsize
  | cons chunk chunks ih =>
    have hnext := (h.request hsize).receive hsize chunk
    rw [PreviewLoop.run, List.flatten_cons, ← List.append_assoc]
    split_ifs with hfull
    · -- The loop breaks: what the rest would bring does not fit any more.
      refine ⟨?_, hnext.size, hnext.requests⟩
      have hlength : responsePreviewBytes ≤ (received ++ chunk).length := by
        have hlength := congrArg List.length hnext.joined
        rw [← hnext.size, List.length_take] at hlength
        omega
      rw [List.take_append_of_le_length hlength]
      exact hnext.joined
    · exact ih hnext (Nat.lt_of_not_le hfull)

/-- The bytes of the loop are those of the preview. -/
theorem PreviewLoop.joined_run (l : PreviewLoop) (chunks : List (List UInt8)) :
    (l.run chunks).joined = l.joined ++ readChunks l.size chunks := by
  induction chunks generalizing l with
  | nil => simp [run, request, joined, readChunks]
  | cons chunk chunks ih =>
    have hjoined : (l.request.receive chunk).joined = l.joined ++ chunk.take (responsePreviewBytes - l.size) := by
      simp [receive, request, joined]
    rw [run, readChunks]
    split_ifs with hfull hread hread
    · exact hjoined
    · exact absurd hfull hread
    · exact absurd hread hfull
    · rw [ih, hjoined, List.append_assoc]
      rfl

/-- However a body is split into chunks, the loop collects its first 2000 bytes and asks for no chunk
once it has them; their text has at most 2000 characters and fits the column. -/
theorem responsePreview_chunks (codecs : Codecs) (chunks : List (List UInt8)) :
    (PreviewLoop.init.run chunks).joined = chunks.flatten.take (min 2000 chunks.flatten.length) ∧
      (∀ collected ∈ (PreviewLoop.init.run chunks).requests, collected.length < 2000) ∧
      readResponsePreview codecs none chunks = .ok (decodeUtf8 (PreviewLoop.init.run chunks).joined) ∧
      (decodeUtf8 (PreviewLoop.init.run chunks).joined).length ≤ 2000 ∧
      ∀ preview, textParam (some (decodeUtf8 (PreviewLoop.init.run chunks).joined)) = some preview →
        ∀ text ∈ preview, text.length ≤ 2000 := by
  have hsound : (PreviewLoop.init.run chunks).Sound chunks.flatten :=
    PreviewLoop.sound_init.run (by decide) chunks
  have hlength : (decodeUtf8 (PreviewLoop.init.run chunks).joined).length ≤ 2000 := by
    apply Nat.le_trans (length_decodeUtf8_le _)
    rw [hsound.joined]
    exact List.length_take_le _ _
  refine ⟨?_, hsound.requests, ?_, hlength, fun preview hpreview => ?_⟩
  · rw [hsound.joined, ← List.take_eq_take_min]
    rfl
  · rw [readResponsePreview, PreviewLoop.joined_run]
    exact codecs.utf8 _
  · exact length_of_textParam hpreview (by simpa using hlength)

end PgRelay

import Mathlib.Data.List.Basic
import Mathlib.Data.List.ReduceOption
import Mathlib.Data.Nat.Notation

/-! A receiver that gets a stream in chunks and is called once for each. A call takes
the frame at the front of what is buffered, and nothing more; if the frame is not whole
yet, it throws the buffered symbols away or takes something else. All frames arrive
exactly when every call finds a whole frame or nothing at all, and this depends on the
lengths of the frames and of the chunks alone. -/

namespace Pacing

variable {α : Type*}

/-- One call on the buffered symbols: the frame that it takes, if it takes one, and the
symbols that stay buffered. A call may fail. -/
abbrev Receiver (α : Type*) := List α → Option (Option (List α) × List α)

/-- The calls for a list of chunks. -/
def feed (receive : Receiver α) : List (List α) → List α → Option (List (Option (List α)) × List α)
  | [], buffered => some ([], buffered)
  | chunk :: chunks, buffered => do
    let (taken, rest) ← receive (buffered ++ chunk)
    let (takens, rest) ← feed receive chunks rest
    some (taken :: takens, rest)

/-- What a receiver does that can hold a number of symbols: it keeps nothing when it takes
nothing, and it takes and keeps no more than there is. -/
structure Regular (receive : Receiver α) (limit : ℕ) : Prop where
  full : ∀ buffered, limit < buffered.length → receive buffered = none
  empty : receive [] = some (none, [])
  drops : ∀ buffered rest, receive buffered = some (none, rest) → rest = []
  conserves : ∀ buffered taken rest, receive buffered = some (taken, rest) →
    (taken.getD []).length + rest.length ≤ buffered.length

/-- The frame is taken as soon as it is whole. -/
def Takes (receive : Receiver α) (limit : ℕ) (frame : List α) : Prop :=
  frame ≠ [] ∧ ∀ rest, (frame ++ rest).length ≤ limit → receive (frame ++ rest) = some (some frame, rest)

/-- Every call finds nothing or the whole frame at the front, and no frame is left: for a
number of buffered symbols, the lengths of the frames, and the lengths of the chunks. -/
def Paced (limit : ℕ) : ℕ → List ℕ → List ℕ → Prop
  | _, frames, [] => frames = []
  | buffered, frames, chunk :: chunks =>
    buffered + chunk ≤ limit ∧
      match frames with
      | [] => buffered + chunk = 0 ∧ Paced limit 0 [] chunks
      | frame :: frames =>
        if buffered + chunk = 0 then Paced limit 0 (frame :: frames) chunks
        else frame ≤ buffered + chunk ∧ Paced limit (buffered + chunk - frame) frames chunks

/-- The stream can be cut behind a number of symbols. -/
def Boundary (frames : List (List α)) (n : ℕ) : Prop :=
  ∃ before, before <+: frames ∧ before.flatten.length = n

/-- The frames taken are the frames sent, in order and each once; a call whose chunk ends
inside a frame throws nothing away; and behind the last chunk no frame is left. -/
structure Delivers (frames chunks : List (List α)) (takens : List (Option (List α))) : Prop where
  inOrder : ∀ k, (takens.take k).reduceOption <+: frames
  kept : ∀ before chunk after, chunks = before ++ chunk :: after →
    ¬ Boundary frames (before.flatten.length + chunk.length) → takens[before.length]? ≠ some none
  complete : takens.reduceOption = frames

variable {receive : Receiver α} {limit : ℕ} {frames chunks : List (List α)} {frame buffered rest : List α}
  {takens : List (Option (List α))}

theorem feed_cons {chunk : List α} : feed receive (chunk :: chunks) buffered = some (takens, rest) ↔
    ∃ taken rest₁ takens₁, receive (buffered ++ chunk) = some (taken, rest₁) ∧
      feed receive chunks rest₁ = some (takens₁, rest) ∧ takens = taken :: takens₁ := by
  rw [feed]
  constructor
  · intro h
    obtain ⟨⟨taken, rest₁⟩, hreceive, h⟩ := Option.bind_eq_some_iff.mp h
    obtain ⟨⟨takens₁, rest₂⟩, hfeed, h⟩ := Option.bind_eq_some_iff.mp h
    cases h
    exact ⟨taken, rest₁, takens₁, hreceive, hfeed, rfl⟩
  · rintro ⟨taken, rest₁, takens₁, hreceive, hfeed, rfl⟩
    simp [hreceive, hfeed]

/-- No more is taken than came in. -/
theorem Regular.feed_conserves (h : Regular receive limit)
    (hfeed : feed receive chunks buffered = some (takens, rest)) :
    takens.reduceOption.flatten.length + rest.length ≤ buffered.length + chunks.flatten.length := by
  induction chunks generalizing buffered takens with
  | nil =>
    cases hfeed
    simp
  | cons chunk chunks ih =>
    obtain ⟨taken, rest₁, takens₁, hreceive, hlater, rfl⟩ := feed_cons.mp hfeed
    have hone := h.conserves _ _ _ hreceive
    have hmore := ih hlater
    rw [List.length_append] at hone
    rw [List.flatten_cons, List.length_append]
    cases taken with
    | none =>
      rw [List.reduceOption_cons_of_none]
      simp only [Option.getD_none, List.length_nil] at hone
      omega
    | some frame =>
      rw [List.reduceOption_cons_of_some, List.flatten_cons, List.length_append]
      simp only [Option.getD_some] at hone
      omega

/-- What a call can find in a stream of frames. -/
inductive Finds (limit : ℕ) (frames : List (List α)) (buffered : List α) : Prop
  | full (h : limit < buffered.length)
  | empty (h : buffered = [])
  | whole (frame : List α) (later : List (List α)) (rest : List α) (hframes : frames = frame :: later)
      (hbuffered : buffered = frame ++ rest) (hlimit : buffered.length ≤ limit)
  | part (frame : List α) (later : List (List α)) (hframes : frames = frame :: later) (h : buffered ≠ [])
      (hlength : buffered.length < frame.length) (hlimit : buffered.length ≤ limit)

theorem finds_of_prefix (h : buffered <+: frames.flatten) : Finds limit frames buffered := by
  obtain hfull | hlimit := Nat.lt_or_ge limit buffered.length
  · exact .full hfull
  by_cases hempty : buffered = []
  · exact .empty hempty
  cases frames with
  | nil => exact absurd (List.prefix_nil.mp h) hempty
  | cons frame later =>
    obtain hpart | hwhole := Nat.lt_or_ge buffered.length frame.length
    · exact .part frame later rfl hempty hpart hlimit
    · rw [List.flatten_cons] at h
      obtain ⟨rest, rfl⟩ := List.prefix_of_prefix_length_le (List.prefix_append _ _) h hwhole
      exact .whole frame later rest rfl rfl hlimit

/-- Behind a call that took something else or threw symbols away, the frames do not come. -/
theorem Regular.not_taken_of_part (h : Regular receive limit) {later : List (List α)} {chunk : List α}
    (hstream : buffered ++ (chunk :: chunks).flatten = (frame :: later).flatten)
    (hpart : (buffered ++ chunk).length < frame.length) (hne : buffered ++ chunk ≠ [])
    (hfeed : feed receive (chunk :: chunks) buffered = some (takens, rest)) :
    takens.reduceOption ≠ frame :: later := by
  obtain ⟨taken, rest₁, takens₁, hreceive, hlater, rfl⟩ := feed_cons.mp hfeed
  intro htaken
  cases taken with
  | none =>
    obtain rfl := h.drops _ _ hreceive
    rw [List.reduceOption_cons_of_none] at htaken
    have hlength := h.feed_conserves hlater
    have htotal := congrArg List.length hstream
    have hpos := List.length_pos_iff.mpr hne
    rw [htaken, ← hstream] at hlength
    simp only [List.flatten_cons, List.length_append, List.length_nil] at hlength hpos
    omega
  | some other =>
    rw [List.reduceOption_cons_of_some] at htaken
    obtain ⟨rfl, -⟩ := List.cons.inj htaken
    have hlength := h.conserves _ _ _ hreceive
    simp only [Option.getD_some] at hlength
    omega

theorem Takes.feed_eq (h : Takes receive limit frame) {chunk : List α} (hchunk : buffered ++ chunk = frame ++ rest)
    (hlimit : (buffered ++ chunk).length ≤ limit) {rest' : List α} :
    feed receive (chunk :: chunks) buffered = some (takens, rest') ↔
      ∃ takens₁, feed receive chunks rest = some (takens₁, rest') ∧ takens = some frame :: takens₁ := by
  rw [feed_cons, hchunk]
  rw [hchunk] at hlimit
  rw [h.2 rest hlimit]
  constructor
  · rintro ⟨taken, rest₁, takens₁, hreceive, hlater, rfl⟩
    cases hreceive
    exact ⟨takens₁, hlater, rfl⟩
  · rintro ⟨takens₁, hlater, rfl⟩
    exact ⟨some frame, rest, takens₁, rfl, hlater, rfl⟩

theorem Regular.feed_eq_of_empty (h : Regular receive limit) {chunk : List α} (hchunk : buffered ++ chunk = []) :
    feed receive (chunk :: chunks) buffered = some (takens, rest) ↔
      ∃ takens₁, feed receive chunks [] = some (takens₁, rest) ∧ takens = none :: takens₁ := by
  rw [feed_cons, hchunk, h.empty]
  constructor
  · rintro ⟨taken, rest₁, takens₁, hreceive, hlater, rfl⟩
    cases hreceive
    exact ⟨takens₁, hlater, rfl⟩
  · rintro ⟨takens₁, hlater, rfl⟩
    exact ⟨none, [], takens₁, rfl, hlater, rfl⟩

theorem le_of_paced_cons {buffered chunk : ℕ} {frames chunks : List ℕ}
    (h : Paced limit buffered frames (chunk :: chunks)) : buffered + chunk ≤ limit := by
  unfold Paced at h
  exact h.1

theorem paced_cons_empty {buffered chunk : ℕ} {frames chunks : List ℕ} (h : buffered + chunk = 0) :
    Paced limit buffered frames (chunk :: chunks) ↔ Paced limit 0 frames chunks := by
  cases frames with
  | nil => simp [Paced, h]
  | cons frame frames => simp [Paced, h]

theorem paced_cons_whole {buffered chunk frame rest : ℕ} {frames chunks : List ℕ} (hpos : 0 < frame)
    (hrest : buffered + chunk = frame + rest) :
    Paced limit buffered (frame :: frames) (chunk :: chunks) ↔
      frame + rest ≤ limit ∧ Paced limit rest frames chunks := by
  rw [Paced, hrest]
  simp only [if_neg (show ¬ frame + rest = 0 by omega), Nat.le_add_right, true_and, Nat.add_sub_cancel_left]

theorem not_paced_cons_part {buffered chunk frame : ℕ} {frames chunks : List ℕ}
    (hpos : buffered + chunk ≠ 0) (hpart : buffered + chunk < frame) :
    ¬ Paced limit buffered (frame :: frames) (chunk :: chunks) := by
  rw [Paced, if_neg hpos]
  rintro ⟨-, hwhole, -⟩
  omega

/-- The frames come exactly when the calls are paced. -/
theorem taken_iff_paced (h : Regular receive limit) (hframes : ∀ frame ∈ frames, Takes receive limit frame)
    (hstream : buffered ++ chunks.flatten = frames.flatten) :
    (∃ takens rest, feed receive chunks buffered = some (takens, rest) ∧ takens.reduceOption = frames) ↔
      Paced limit buffered.length (frames.map List.length) (chunks.map List.length) := by
  induction chunks generalizing buffered frames with
  | nil =>
    simp only [feed, List.map_nil, Paced, List.map_eq_nil_iff]
    constructor
    · rintro ⟨takens, rest, hfeed, rfl⟩
      cases hfeed
      rfl
    · rintro rfl
      exact ⟨[], buffered, rfl, rfl⟩
  | cons chunk chunks ih =>
    have hcut : buffered ++ chunk ++ chunks.flatten = frames.flatten := by
      rw [List.append_assoc, ← List.flatten_cons, hstream]
    have hfinds : Finds limit frames (buffered ++ chunk) :=
      finds_of_prefix ⟨chunks.flatten, hcut⟩
    rw [List.map_cons]
    cases hfinds with
    | full hfull =>
      constructor
      · rintro ⟨takens, rest, hfeed, -⟩
        obtain ⟨taken, rest₁, takens₁, hreceive, -, -⟩ := feed_cons.mp hfeed
        rw [h.full _ hfull] at hreceive
        cases hreceive
      · intro hpaced
        rw [List.length_append] at hfull
        exact absurd (le_of_paced_cons hpaced) (Nat.not_le.mpr hfull)
    | empty hempty =>
      rw [hempty] at hcut
      have hlength := congrArg List.length hempty
      rw [List.length_append] at hlength
      rw [paced_cons_empty hlength, ← List.length_nil (α := α), ← ih hframes hcut]
      constructor
      · rintro ⟨takens, rest, hfeed, htaken⟩
        obtain ⟨takens₁, hlater, rfl⟩ := (h.feed_eq_of_empty hempty).mp hfeed
        exact ⟨takens₁, rest, hlater, htaken⟩
      · rintro ⟨takens₁, rest, hlater, htaken⟩
        exact ⟨none :: takens₁, rest, (h.feed_eq_of_empty hempty).mpr ⟨takens₁, hlater, rfl⟩, htaken⟩
    | whole frame later rest hcons hbuffered hlimit =>
      subst hcons
      have htakes := hframes frame List.mem_cons_self
      have hlater : ∀ frame ∈ later, Takes receive limit frame := fun frame' hmem =>
        hframes frame' (List.mem_cons_of_mem _ hmem)
      rw [hbuffered, List.flatten_cons, List.append_assoc] at hcut
      have hlength := congrArg List.length hbuffered
      rw [List.length_append, List.length_append] at hlength
      rw [List.map_cons, paced_cons_whole (List.length_pos_iff.mpr htakes.1) hlength,
        ← ih hlater (List.append_cancel_left hcut), and_iff_right (by rw [← hlength, ← List.length_append]; exact hlimit)]
      constructor
      · rintro ⟨takens, rest', hfeed, htaken⟩
        obtain ⟨takens₁, hfeed₁, rfl⟩ := (htakes.feed_eq hbuffered hlimit).mp hfeed
        exact ⟨takens₁, rest', hfeed₁, List.tail_eq_of_cons_eq htaken⟩
      · rintro ⟨takens₁, rest', hfeed₁, htaken⟩
        refine ⟨some frame :: takens₁, rest', (htakes.feed_eq hbuffered hlimit).mpr ⟨takens₁, hfeed₁, rfl⟩, ?_⟩
        rw [List.reduceOption_cons_of_some, htaken]
    | part frame later hcons hne hpart hlimit =>
      subst hcons
      constructor
      · rintro ⟨takens, rest, hfeed, htaken⟩
        exact absurd htaken (h.not_taken_of_part hstream hpart hne hfeed)
      · intro hpaced
        have hpos := List.length_pos_iff.mpr hne
        rw [List.length_append] at hpos hpart
        exact absurd hpaced (not_paced_cons_part (by omega) hpart)

theorem Boundary.cons {later : List (List α)} {n : ℕ} (h : Boundary later n) :
    Boundary (frame :: later) (frame.length + n) := by
  obtain ⟨before, hbefore, rfl⟩ := h
  refine ⟨frame :: before, List.cons_prefix_cons.mpr ⟨rfl, hbefore⟩, ?_⟩
  rw [List.flatten_cons, List.length_append]

/-- If all frames come, a call takes nothing only where the stream can be cut. -/
theorem boundary_of_taken_none (h : Regular receive limit)
    (hframes : ∀ frame ∈ frames, Takes receive limit frame)
    (hstream : buffered ++ chunks.flatten = frames.flatten)
    (hfeed : feed receive chunks buffered = some (takens, rest)) (htaken : takens.reduceOption = frames)
    {before after : List (List α)} {chunk : List α} (hchunks : chunks = before ++ chunk :: after)
    (hnone : takens[before.length]? = some none) :
    Boundary frames (buffered.length + (before.flatten.length + chunk.length)) := by
  induction chunks generalizing buffered frames takens before with
  | nil => simp at hchunks
  | cons first chunks ih =>
    have hcut : buffered ++ first ++ chunks.flatten = frames.flatten := by
      rw [List.append_assoc, ← List.flatten_cons, hstream]
    have hfinds : Finds limit frames (buffered ++ first) := finds_of_prefix ⟨chunks.flatten, hcut⟩
    cases hfinds with
    | full hfull =>
      obtain ⟨taken, rest₁, takens₁, hreceive, -, -⟩ := feed_cons.mp hfeed
      rw [h.full _ hfull] at hreceive
      cases hreceive
    | empty hempty =>
      obtain ⟨takens₁, hlater, rfl⟩ := (h.feed_eq_of_empty hempty).mp hfeed
      rw [hempty] at hcut
      have hlength := congrArg List.length hempty
      rw [List.length_append, List.length_nil] at hlength
      cases before with
      | nil =>
        obtain ⟨rfl, -⟩ := List.cons.inj hchunks
        exact ⟨[], List.nil_prefix, by simpa using hlength.symm⟩
      | cons first' before =>
        obtain ⟨rfl, hlast⟩ := List.cons.inj hchunks
        have hboundary := ih hframes hcut hlater htaken hlast hnone
        rw [List.length_nil] at hboundary
        rw [List.flatten_cons, List.length_append, Nat.add_assoc, ← Nat.add_assoc, hlength]
        exact hboundary
    | whole frame later rest₁ hcons hbuffered hlimit =>
      subst hcons
      obtain ⟨takens₁, hlater, rfl⟩ := ((hframes frame List.mem_cons_self).feed_eq hbuffered hlimit).mp hfeed
      rw [hbuffered, List.flatten_cons, List.append_assoc] at hcut
      have hlength := congrArg List.length hbuffered
      rw [List.length_append, List.length_append] at hlength
      cases before with
      | nil => cases hnone
      | cons first' before =>
        obtain ⟨rfl, hlast⟩ := List.cons.inj hchunks
        have hboundary := ih (fun frame' hmem => hframes frame' (List.mem_cons_of_mem _ hmem))
          (List.append_cancel_left hcut) hlater (List.tail_eq_of_cons_eq htaken) hlast hnone
        rw [List.flatten_cons, List.length_append, Nat.add_assoc, ← Nat.add_assoc, hlength, Nat.add_assoc]
        exact hboundary.cons
    | part frame later hcons hne hpart hlimit =>
      subst hcons
      exact absurd htaken (h.not_taken_of_part hstream hpart hne hfeed)

/-- A stream in chunks comes through exactly when the calls are paced. -/
theorem delivers_iff_paced (h : Regular receive limit) (hframes : ∀ frame ∈ frames, Takes receive limit frame)
    (hstream : chunks.flatten = frames.flatten) :
    (∃ takens rest, feed receive chunks [] = some (takens, rest) ∧ Delivers frames chunks takens) ↔
      Paced limit 0 (frames.map List.length) (chunks.map List.length) := by
  rw [← List.length_nil (α := α), ← taken_iff_paced h hframes hstream]
  constructor
  · rintro ⟨takens, rest, hfeed, hdelivers⟩
    exact ⟨takens, rest, hfeed, hdelivers.complete⟩
  · rintro ⟨takens, rest, hfeed, htaken⟩
    refine ⟨takens, rest, hfeed, fun k => ?_, fun before chunk after hchunks hinside hnone => ?_, htaken⟩
    · rw [← htaken]
      exact (List.take_prefix k takens).filterMap id
    · have hboundary := boundary_of_taken_none h hframes hstream hfeed htaken hchunks hnone
      rw [List.length_nil, Nat.zero_add] at hboundary
      exact hinside hboundary

end Pacing

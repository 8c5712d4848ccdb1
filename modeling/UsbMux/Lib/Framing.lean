/-
Frames in a stream that may also hold garbage. A window of fixed length at
the front is tested for a header; a header tells how long its frame is, a
window that is no header costs one symbol and the search goes on at the next.

`tokens` is what a parser that sees a whole stream finds, `rest` what it
still waits on. `tokens_append` is why the parser can be fed piecewise: only
the remainder matters for what comes later. The lemmas over `Pending` say
what one more symbol does, which is what a state machine has to match.
-/
import Mathlib.Data.List.Infix

namespace UsbMux.Framing

/-- A frame format over the symbols `α` with headers `H`: the length of the
window, which windows are headers, and the length of a header's frame. -/
structure Format (α H : Type) where
  window : Nat
  window_pos : 0 < window
  accept : List α → Option H
  size : H → Nat
  window_le : ∀ h, window ≤ size h

/-- What a stream falls into: skipped symbols and frames, each with the
symbols it is made of. -/
inductive Token (α H : Type)
  | skip (a : α)
  | frame (h : H) (raw : List α)

/-- The symbols a token is made of. -/
def Token.raw {α H : Type} : Token α H → List α
  | .skip a => [a]
  | .frame _ raw => raw

variable {α H : Type} (F : Format α H)

/-- The tokens of a stream, as far as they are complete. -/
def tokens : List α → List (Token α H)
  | [] => []
  | a :: s =>
    if (a :: s).length < F.window then [] else
    match F.accept ((a :: s).take F.window) with
    | none => .skip a :: tokens s
    | some h =>
      if (a :: s).length < F.size h then []
      else .frame h ((a :: s).take (F.size h)) :: tokens ((a :: s).drop (F.size h))
termination_by s => s.length
decreasing_by
  · simp
  · have := F.window_pos; have := F.window_le h; simp; omega

/-- The end of a stream that belongs to no complete token. -/
def rest : List α → List α
  | [] => []
  | a :: s =>
    if (a :: s).length < F.window then a :: s else
    match F.accept ((a :: s).take F.window) with
    | none => rest s
    | some h => if (a :: s).length < F.size h then a :: s else rest ((a :: s).drop (F.size h))
termination_by s => s.length
decreasing_by
  · simp
  · have := F.window_pos; have := F.window_le h; simp; omega

/-- A stream with nothing to be found yet: too short for a window, or the
start of a frame whose end has not come. -/
def Pending (r : List α) : Prop :=
  r.length < F.window ∨ ∃ h, F.accept (r.take F.window) = some h ∧ r.length < F.size h

variable {F}

/-! ## The three things a front window can be -/

theorem tokens_of_pending {r : List α} (hr : Pending F r) : tokens F r = [] := by
  cases r with
  | nil => rw [tokens]
  | cons a s =>
    rw [tokens]
    rcases hr with hr | ⟨h, ha, hr⟩
    · rw [if_pos hr]
    · split
      · rfl
      · simp only [ha, if_pos hr]

theorem rest_of_pending {r : List α} (hr : Pending F r) : rest F r = r := by
  cases r with
  | nil => rw [rest]
  | cons a s =>
    rw [rest]
    rcases hr with hr | ⟨h, ha, hr⟩
    · rw [if_pos hr]
    · split
      · rfl
      · simp only [ha, if_pos hr]

theorem tokens_skip {a : α} {s : List α} (hw : F.window ≤ (a :: s).length)
    (ha : F.accept ((a :: s).take F.window) = none) : tokens F (a :: s) = .skip a :: tokens F s := by
  rw [tokens, if_neg (by omega), ha]

theorem rest_skip {a : α} {s : List α} (hw : F.window ≤ (a :: s).length)
    (ha : F.accept ((a :: s).take F.window) = none) : rest F (a :: s) = rest F s := by
  rw [rest, if_neg (by omega), ha]

theorem tokens_frame {h : H} {f t : List α} (hf : f.length = F.size h)
    (ha : F.accept (f.take F.window) = some h) :
    tokens F (f ++ t) = .frame h f :: tokens F t := by
  have hw := F.window_le h
  have hp := F.window_pos
  obtain ⟨a, f, rfl⟩ := List.exists_cons_of_ne_nil (List.ne_nil_of_length_pos (l := f) (by omega))
  have ha' : F.accept ((a :: (f ++ t)).take F.window) = some h := by
    rw [← List.cons_append, List.take_append_of_le_length (by omega), ha]
  rw [List.cons_append, tokens, if_neg (by simp at hf ⊢; omega), ha']
  simp only
  rw [if_neg (by simp at hf ⊢; omega), ← List.cons_append, List.take_left' hf, List.drop_left' hf]

theorem rest_frame {h : H} {f t : List α} (hf : f.length = F.size h)
    (ha : F.accept (f.take F.window) = some h) : rest F (f ++ t) = rest F t := by
  have hw := F.window_le h
  have hp := F.window_pos
  obtain ⟨a, f, rfl⟩ := List.exists_cons_of_ne_nil (List.ne_nil_of_length_pos (l := f) (by omega))
  have ha' : F.accept ((a :: (f ++ t)).take F.window) = some h := by
    rw [← List.cons_append, List.take_append_of_le_length (by omega), ha]
  rw [List.cons_append, rest, if_neg (by simp at hf ⊢; omega), ha']
  simp only
  rw [if_neg (by simp at hf ⊢; omega), ← List.cons_append, List.drop_left' hf]

/-- The front of a stream is pending, one symbol to skip, or a frame. -/
theorem front_cases (s : List α) :
    Pending F s ∨
    (∃ a t, s = a :: t ∧ F.window ≤ s.length ∧ F.accept (s.take F.window) = none) ∨
    ∃ h f t, s = f ++ t ∧ f.length = F.size h ∧ F.accept (f.take F.window) = some h := by
  by_cases hw : s.length < F.window
  · exact .inl (.inl hw)
  have hp := F.window_pos
  cases ha : F.accept (s.take F.window) with
  | none =>
    obtain ⟨a, t, rfl⟩ := List.exists_cons_of_ne_nil (List.ne_nil_of_length_pos (l := s) (by omega))
    exact .inr (.inl ⟨a, t, rfl, by omega, rfl⟩)
  | some h =>
    by_cases hs : s.length < F.size h
    · exact .inl (.inr ⟨h, ha, hs⟩)
    · have hl := F.window_le h
      refine .inr (.inr ⟨h, s.take (F.size h), s.drop (F.size h), by simp, by simp; omega, ?_⟩)
      rw [List.take_take, Nat.min_eq_left hl, ha]

theorem front_induction {motive : List α → Prop} (pending : ∀ s, Pending F s → motive s)
    (skip : ∀ a t, F.window ≤ (a :: t).length → F.accept ((a :: t).take F.window) = none →
      motive t → motive (a :: t))
    (frame : ∀ h f t, f.length = F.size h → F.accept (f.take F.window) = some h →
      motive t → motive (f ++ t)) (s : List α) : motive s := by
  induction hn : s.length using Nat.strongRecOn generalizing s with
  | _ n ih =>
    rcases front_cases (F := F) s with hp | ⟨a, t, rfl, hw, ha⟩ | ⟨h, f, t, rfl, hf, ha⟩
    · exact pending s hp
    · exact skip a t hw ha (ih t.length (by simp at hn; omega) t rfl)
    · have := F.window_pos
      have := F.window_le h
      exact frame h f t hf ha (ih t.length (by simp at hn; omega) t rfl)

/-! ## Feeding a stream piecewise -/

theorem pending_rest (s : List α) : Pending F (rest F s) := by
  induction s using front_induction (F := F) with
  | pending s hp => rwa [rest_of_pending hp]
  | skip a t hw ha ih => rwa [rest_skip hw ha]
  | frame h f t hf ha ih => rwa [rest_frame hf ha]

/-- **Only the remainder matters**: the tokens of a longer stream are those
found so far, then those of the remainder with what came after. -/
theorem tokens_append (s t : List α) : tokens F (s ++ t) = tokens F s ++ tokens F (rest F s ++ t) := by
  induction s using front_induction (F := F) with
  | pending s hp => rw [tokens_of_pending hp, rest_of_pending hp, List.nil_append]
  | skip a u hw ha ih =>
    have ha' : F.accept ((a :: (u ++ t)).take F.window) = none := by
      rw [← List.cons_append, List.take_append_of_le_length hw, ha]
    rw [tokens_skip hw ha, rest_skip hw ha, List.cons_append,
      tokens_skip (by simp at hw ⊢; omega) ha', ih, List.cons_append]
  | frame h f u hf ha ih =>
    rw [List.append_assoc, tokens_frame hf ha, tokens_frame hf ha, rest_frame hf ha, ih, List.cons_append]

theorem rest_append (s t : List α) : rest F (s ++ t) = rest F (rest F s ++ t) := by
  induction s using front_induction (F := F) with
  | pending s hp => rw [rest_of_pending hp]
  | skip a u hw ha ih =>
    have ha' : F.accept ((a :: (u ++ t)).take F.window) = none := by
      rw [← List.cons_append, List.take_append_of_le_length hw, ha]
    rw [rest_skip hw ha, List.cons_append, rest_skip (by simp at hw ⊢; omega) ha', ih]
  | frame h f u hf ha ih => rw [List.append_assoc, rest_frame hf ha, rest_frame hf ha, ih]

/-- **Nothing is lost or repeated**: the tokens and the remainder are the stream. -/
theorem raw_tokens_append_rest (s : List α) : (tokens F s).flatMap Token.raw ++ rest F s = s := by
  induction s using front_induction (F := F) with
  | pending s hp => rw [tokens_of_pending hp, rest_of_pending hp]; rfl
  | skip a t hw ha ih => rw [tokens_skip hw ha, rest_skip hw ha]; simpa [Token.raw] using ih
  | frame h f t hf ha ih => rw [tokens_frame hf ha, rest_frame hf ha]; simpa [Token.raw] using ih

/-! ## One more symbol -/

theorem pending_nil : Pending F ([] : List α) := .inl (by simpa using F.window_pos)

theorem pending_of_short {r : List α} (hl : r.length < F.window) : Pending F r := .inl hl

/-- Where no frame starts at the front of a remainder, it is too short for a window. -/
theorem Pending.short {r t : List α} (hr : Pending F r) (ha : F.accept ((r ++ t).take F.window) = none) :
    r.length < F.window := by
  rcases hr with hr | ⟨h, hr, -⟩
  · exact hr
  · by_contra hn
    rw [List.take_append_of_le_length (by omega), hr] at ha
    cases ha

theorem Pending.overrun {r t : List α} {h : H} (hr : Pending F r)
    (ha : F.accept ((r ++ t).take F.window) = some h) : r.length < F.size h := by
  have hw := F.window_le h
  rcases hr with hr | ⟨h', hr, hlt⟩
  · omega
  · by_cases hs : r.length < F.window
    · omega
    · rw [List.take_append_of_le_length (by omega), hr] at ha
      cases ha
      exact hlt

/-- The remainder without its first cell, where no frame starts there. -/
theorem Pending.tail {a : α} {r t : List α} (hr : Pending F (a :: r))
    (ha : F.accept ((a :: r ++ t).take F.window) = none) : Pending F r := by
  have hshort := hr.short ha
  exact pending_of_short (by simp at hshort; omega)

theorem window_reject {a : α} {t : List α} (hl : (a :: t).length = F.window)
    (ha : F.accept (a :: t) = none) : tokens F (a :: t) = [.skip a] ∧ rest F (a :: t) = t := by
  have ha' : F.accept ((a :: t).take F.window) = none := by rw [← hl, List.take_length, ha]
  have ht : Pending F t := .inl (by simp at hl; omega)
  rw [tokens_skip (by omega) ha', rest_skip (by omega) ha', tokens_of_pending ht, rest_of_pending ht]
  exact ⟨rfl, rfl⟩

theorem single_frame {h : H} {f : List α} (hf : f.length = F.size h)
    (ha : F.accept (f.take F.window) = some h) : tokens F f = [.frame h f] ∧ rest F f = [] := by
  have h1 := tokens_frame (t := []) hf ha
  have h2 := rest_frame (t := []) hf ha
  rw [List.append_nil, tokens_of_pending pending_nil] at h1
  rw [List.append_nil, rest_of_pending pending_nil] at h2
  exact ⟨h1, h2⟩

/-! ## Where the frames are -/

/-- The frames among the tokens of a stream that follows `pre`, each with
all that was read up to its last symbol. -/
def located : List α → List (Token α H) → List (List α × H × List α)
  | _, [] => []
  | pre, .skip a :: ts => located (pre ++ [a]) ts
  | pre, .frame h raw :: ts => (pre ++ raw, h, raw) :: located (pre ++ raw) ts

theorem located_append (pre : List α) (ts us : List (Token α H)) :
    located pre (ts ++ us) = located pre ts ++ located (pre ++ ts.flatMap Token.raw) us := by
  induction ts generalizing pre with
  | nil => simp [located]
  | cons t ts ih => cases t <;> simp [located, ih, Token.raw]

theorem located_skips (pre r : List α) (ts : List (Token α H)) :
    located pre (r.map .skip ++ ts) = located (pre ++ r) ts := by
  induction r generalizing pre with
  | nil => simp
  | cons a r ih => simpa [located] using ih (pre ++ [a])

/-- A located frame ends what was read up to it, and is a frame of the format. -/
theorem of_mem_located {pre s : List α} {e : List α × H × List α} (he : e ∈ located pre (tokens F s)) :
    (∃ u, e.1 = pre ++ u ++ e.2.2) ∧ e.1 <+: pre ++ s ∧
      e.2.2.length = F.size e.2.1 ∧ F.accept (e.2.2.take F.window) = some e.2.1 := by
  induction s using front_induction (F := F) generalizing pre with
  | pending s hp => simp [tokens_of_pending hp, located] at he
  | skip a t hw ha ih =>
    rw [tokens_skip hw ha] at he
    obtain ⟨⟨u, hu⟩, hpre, h⟩ := ih he
    exact ⟨⟨a :: u, by simpa using hu⟩, by simpa using hpre, h⟩
  | frame h f t hf ha ih =>
    rw [tokens_frame hf ha] at he
    rcases List.mem_cons.mp he with rfl | he
    · exact ⟨⟨[], by simp⟩, by simp, hf, ha⟩
    · obtain ⟨⟨u, hu⟩, hpre, h⟩ := ih he
      exact ⟨⟨f ++ u, by simpa using hu⟩, by simpa using hpre, h⟩

/-- Located frames do not overlap: each starts at or after the end of those
before it. -/
theorem pairwise_located (pre s : List α) :
    (located pre (tokens F s)).Pairwise fun a b => a.1.length + b.2.2.length ≤ b.1.length := by
  induction s using front_induction (F := F) generalizing pre with
  | pending s hp => simp [tokens_of_pending hp, located]
  | skip a t hw ha ih => rw [tokens_skip hw ha]; exact ih _
  | frame h f t hf ha ih =>
    rw [tokens_frame hf ha]
    refine List.Pairwise.cons ?_ (ih _)
    intro e he
    obtain ⟨u, hu⟩ := (of_mem_located he).1
    rw [hu]; simp; omega

/-! ## Streams of frames -/

/-- The frames among the tokens, with the symbols that follow the window. -/
def bodies (F : Format α H) (ts : List (Token α H)) : List (H × List α) :=
  ts.filterMap fun
    | .skip _ => none
    | .frame h raw => some (h, raw.drop F.window)

@[simp] theorem bodies_nil : bodies F [] = [] := rfl
@[simp] theorem bodies_skip (a : α) (ts : List (Token α H)) : bodies F (.skip a :: ts) = bodies F ts := rfl
@[simp] theorem bodies_frame (h : H) (raw : List α) (ts : List (Token α H)) :
    bodies F (.frame h raw :: ts) = (h, raw.drop F.window) :: bodies F ts := rfl

theorem bodies_eq_located (pre : List α) (ts : List (Token α H)) :
    bodies F ts = (located pre ts).map fun e => (e.2.1, e.2.2.drop F.window) := by
  induction ts generalizing pre with
  | nil => rfl
  | cons t ts ih =>
    cases t with
    | skip a => simpa [located] using ih (pre ++ [a])
    | frame h raw => simpa [located] using ih (pre ++ raw)

/-- A list of symbols that is one frame with header `h`. -/
def IsFrame (F : Format α H) (h : H) (f : List α) : Prop :=
  f.length = F.size h ∧ F.accept (f.take F.window) = some h

/-- **Back to back frames** are found one by one, then what follows them. -/
theorem tokens_frames {fs : List (H × List α)} (hfs : ∀ p ∈ fs, IsFrame F p.1 p.2) (t : List α) :
    tokens F (fs.flatMap Prod.snd ++ t) = fs.map (fun p => .frame p.1 p.2) ++ tokens F t := by
  induction fs with
  | nil => rfl
  | cons p fs ih =>
    obtain ⟨hl, ha⟩ := hfs p (by simp)
    rw [List.flatMap_cons, List.append_assoc, tokens_frame hl ha, ih fun q hq => hfs q (by simp [hq])]
    rfl

theorem pending_of_cut {h : H} {f r : List α} (hf : IsFrame F h f) (hr : r <+: f)
    (hlt : r.length < f.length) : Pending F r := by
  by_cases hw : r.length < F.window
  · exact .inl hw
  · obtain ⟨u, rfl⟩ := hr
    refine .inr ⟨h, ?_, by rw [← hf.1]; exact hlt⟩
    rw [← hf.2, List.take_append_of_le_length (by omega)]

/-! ## A frame after a remainder -/

/-- No window that starts in `r` is a header once `f` follows. -/
def Clean (F : Format α H) (r f : List α) : Prop :=
  ∀ i < r.length, F.accept (((r ++ f).drop i).take F.window) = none

theorem clean_nil (F : Format α H) (f : List α) : Clean F [] f := fun _ h => absurd h (Nat.not_lt_zero _)

theorem clean_cons {a : α} {r f : List α} :
    Clean F (a :: r) f ↔ F.accept ((a :: (r ++ f)).take F.window) = none ∧ Clean F r f := by
  constructor
  · exact fun h => ⟨h 0 (by simp), fun i hi => by simpa using h (i + 1) (by simpa using hi)⟩
  · rintro ⟨h0, h⟩ i hi
    cases i with
    | zero => exact h0
    | succ i => simpa using h i (by simpa using hi)

/-- **A frame after a clean remainder** is found, and the remainder is skipped. -/
theorem tokens_clean {h : H} {r f : List α} (hf : IsFrame F h f) (hc : Clean F r f) (t : List α) :
    tokens F (r ++ f ++ t) = r.map .skip ++ .frame h f :: tokens F t := by
  have hw := F.window_le h
  induction r with
  | nil => rw [List.nil_append, tokens_frame hf.1 hf.2]; rfl
  | cons a r ih =>
    obtain ⟨h0, hc⟩ := clean_cons.mp hc
    have hlen : F.window ≤ (a :: (r ++ f)).length := by have := hf.1; simp; omega
    have h0' : F.accept ((a :: (r ++ f ++ t)).take F.window) = none := by
      rw [← List.cons_append, List.take_append_of_le_length hlen, h0]
    rw [List.cons_append, List.cons_append, tokens_skip (by simp at hlen ⊢; omega) h0', ih hc]
    rfl

/-- If a frame is found that takes up exactly the place of `f`, then no window
before it was a header. -/
theorem clean_of_located {r f t pre : List α} {e : List α × H × List α} (hr : Pending F r)
    (hlen : F.window ≤ f.length) (he : e ∈ located pre (tokens F (r ++ f ++ t)))
    (h1 : e.1.length = pre.length + r.length + f.length) (h2 : e.2.2.length = f.length) : Clean F r f := by
  induction r generalizing pre with
  | nil => exact clean_nil F f
  | cons a r ih =>
    have hwin : F.window ≤ (a :: (r ++ f ++ t)).length := by simp; omega
    have htake : (a :: (r ++ f ++ t)).take F.window = (a :: (r ++ f)).take F.window := by
      rw [← List.cons_append, List.take_append_of_le_length (by simp; omega)]
    cases hacc : F.accept ((a :: (r ++ f ++ t)).take F.window) with
    | none =>
      rw [List.cons_append, List.cons_append, tokens_skip hwin hacc] at he
      rw [List.append_assoc, ← List.cons_append] at hacc
      refine clean_cons.mpr ⟨?_, ih (hr.tail hacc) he ?_⟩
      · rw [← htake, List.append_assoc, ← List.cons_append, hacc]
      simp at h1 ⊢; omega
    | some h' =>
      -- a header here starts a frame that reaches past `r`, so none starts at its end
      exfalso
      have hsize : (a :: r).length < F.size h' := by
        refine hr.overrun (?_ : F.accept ((a :: r ++ (f ++ t)).take F.window) = some h')
        rw [← hacc, List.append_assoc, List.cons_append]
      rw [List.cons_append, List.cons_append] at he
      by_cases hs : (a :: (r ++ f ++ t)).length < F.size h'
      · rw [tokens_of_pending (.inr ⟨h', hacc, hs⟩)] at he
        simp [located] at he
      · have hw := F.window_le h'
        have hfl : ((a :: (r ++ f ++ t)).take (F.size h')).length = F.size h' := by simp at hs ⊢; omega
        rw [← List.take_append_drop (F.size h') (a :: (r ++ f ++ t)), tokens_frame hfl
          (by rw [List.take_take, Nat.min_eq_left hw, hacc])] at he
        rcases List.mem_cons.mp he with rfl | he
        · simp only at h1 h2
          rw [List.length_append, hfl] at h1
          rw [hfl] at h2
          simp at h1; omega
        · obtain ⟨u, hu⟩ := (of_mem_located he).1
          have := congrArg List.length hu
          simp only [List.length_append, hfl] at this
          omega

/-- **Exactly the clean remainders** before a frame are skipped: all that is
found is the frame, where it stands. -/
theorem located_singleton_iff {h : H} {r f : List α} (hf : IsFrame F h f) (pre : List α) :
    located pre (tokens F (r ++ f)) = [(pre ++ r ++ f, h, f)] ↔ Clean F r f := by
  constructor
  · intro hl
    induction r generalizing pre with
    | nil => exact clean_nil F f
    | cons a r ih =>
      have hw := F.window_le h
      have hlen : F.window ≤ (a :: (r ++ f)).length := by
        have := hf.1
        simp only [List.length_cons, List.length_append]
        omega
      rcases front_cases (F := F) (a :: (r ++ f)) with hp | ⟨b, t, he, -, ha⟩ | ⟨h', f', t, he, hf', ha⟩
      · rw [List.cons_append, tokens_of_pending hp] at hl
        cases hl
      · cases he
        rw [List.cons_append, tokens_skip hlen ha] at hl
        refine clean_cons.mpr ⟨ha, ih (pre ++ [a]) ?_⟩
        simpa [located] using hl
      · -- a header here starts a frame that ends where `f` does, though it is no longer
        rw [List.cons_append, he, tokens_frame hf' ha] at hl
        simp only [located, List.cons.injEq, Prod.mk.injEq] at hl
        obtain ⟨⟨hpre, -, rfl⟩, -⟩ := hl
        have := congrArg List.length hpre
        simp only [List.length_append, List.length_cons] at this
        omega
  · intro hc
    have := tokens_clean hf hc []
    rw [List.append_nil, tokens_of_pending pending_nil] at this
    rw [this, located_skips]
    rfl

/-! ## From any place on

In a stream of frames in which no other window is a header, a parser that
starts anywhere, or with a remainder of something else, is back in step at
the first frame it does not start inside. -/

/-- The frames among the tokens. -/
def found (ts : List (Token α H)) : List (H × List α) :=
  ts.filterMap fun
    | .skip _ => none
    | .frame h raw => some (h, raw)

@[simp] theorem found_nil : found ([] : List (Token α H)) = [] := rfl
@[simp] theorem found_skip (a : α) (ts : List (Token α H)) : found (.skip a :: ts) = found ts := rfl
@[simp] theorem found_frame (h : H) (raw : List α) (ts : List (Token α H)) :
    found (.frame h raw :: ts) = (h, raw) :: found ts := rfl

theorem found_eq_located (pre : List α) (ts : List (Token α H)) :
    found ts = (located pre ts).map Prod.snd := by
  induction ts generalizing pre with
  | nil => rfl
  | cons t ts ih =>
    cases t with
    | skip a => simpa [located] using ih (pre ++ [a])
    | frame h raw => simpa [located] using ih (pre ++ raw)

/-- The symbols of frames that stand back to back. -/
def joined (fs : List (H × List α)) : List α := fs.flatMap Prod.snd

/-- Where the `m`-th of them starts. -/
def startOf (fs : List (H × List α)) (m : Nat) : Nat := (joined (fs.take m)).length

@[simp] theorem joined_cons (p : H × List α) (fs : List (H × List α)) : joined (p :: fs) = p.2 ++ joined fs := rfl
@[simp] theorem startOf_zero (fs : List (H × List α)) : startOf fs 0 = 0 := rfl
@[simp] theorem startOf_succ (p : H × List α) (fs : List (H × List α)) (m : Nat) :
    startOf (p :: fs) (m + 1) = p.2.length + startOf fs m := by simp [startOf]

theorem startOf_le (fs : List (H × List α)) (m : Nat) : startOf fs m ≤ (joined fs).length := by
  have h : joined fs = joined (fs.take m) ++ joined (fs.drop m) := by
    rw [joined, joined, joined, ← List.flatMap_append, List.take_append_drop]
  rw [startOf, h, List.length_append]
  exact Nat.le_add_right _ _

/-- Only the windows at which a frame starts are headers. -/
def OnlyStarts (F : Format α H) (fs : List (H × List α)) : Prop :=
  ∀ i, i + F.window ≤ (joined fs).length → F.accept (((joined fs).drop i).take F.window) ≠ none →
    ∃ m < fs.length, i = startOf fs m

theorem onlyStarts_iff_tails {fs : List (H × List α)} :
    OnlyStarts F fs ↔ ∀ t ∈ (joined fs).tails, F.window ≤ t.length → F.accept (t.take F.window) ≠ none →
      ∃ m < fs.length, (joined fs).length - t.length = startOf fs m := by
  constructor
  · intro h t ht hw ha
    have hlen := ((List.mem_tails _ _).mp ht).length_le
    rw [List.suffix_iff_eq_drop.mp ((List.mem_tails _ _).mp ht)] at ha
    exact h _ (by omega) ha
  · intro h i hi ha
    have hsub : (joined fs).length - ((joined fs).drop i).length = i := by rw [List.length_drop]; omega
    obtain ⟨m, hm, hs⟩ := h _ ((List.mem_tails _ _).mpr (List.drop_suffix i _)) (by rw [List.length_drop]; omega) ha
    exact ⟨m, hm, hsub ▸ hs⟩

instance (fs : List (H × List α)) : Decidable (OnlyStarts F fs) := decidable_of_iff' _ onlyStarts_iff_tails

theorem OnlyStarts.tail {p : H × List α} {fs : List (H × List α)} (h : OnlyStarts F (p :: fs)) :
    OnlyStarts F fs := by
  intro i hi ha
  have hdrop : (joined (p :: fs)).drop (p.2.length + i) = (joined fs).drop i := by
    rw [joined_cons, List.drop_append]; simp
  obtain ⟨m, hm, hs⟩ := h (p.2.length + i) (by simp; omega) (by rwa [hdrop])
  cases m with
  | zero =>
    -- the window would stand where the first frame starts, so that frame has no symbols
    cases fs with
    | nil => have := F.window_pos; simp [joined] at hi; omega
    | cons q fs => exact ⟨0, by simp, by simp at hs ⊢; omega⟩
  | succ m => exact ⟨m, by simpa using hm, by simp at hs; omega⟩

/-- Windows that are no headers are skipped, and a stream too short for one holds no frame. -/
theorem found_drop {s : List α} {n : Nat}
    (h : ∀ i < n, i + F.window ≤ s.length → F.accept ((s.drop i).take F.window) = none) :
    found (tokens F s) = found (tokens F (s.drop n)) := by
  induction n generalizing s with
  | zero => rfl
  | succ n ih =>
    cases s with
    | nil => simp
    | cons a t =>
      by_cases hw : (a :: t).length < F.window
      · have ht : ((a :: t).drop (n + 1)).length < F.window := by simp at hw ⊢; omega
        rw [tokens_of_pending (pending_of_short hw), tokens_of_pending (pending_of_short ht)]
      · have h0 := h 0 (Nat.succ_pos n) (by omega)
        rw [tokens_skip (by omega) h0, found_skip, List.drop_succ_cons]
        refine ih ?_
        intro i hi hlen
        exact h (i + 1) (by omega) (by simp; omega)

/-- **Started anywhere**: all frames are found that start at the place or after it. -/
theorem found_from {fs : List (H × List α)} (hfs : ∀ p ∈ fs, IsFrame F p.1 p.2) (ho : OnlyStarts F fs)
    (n : Nat) :
    ∃ k, found (tokens F ((joined fs).drop n)) = fs.drop k ∧ ∀ m, n ≤ startOf fs m → k ≤ m := by
  induction fs generalizing n with
  | nil => exact ⟨0, by simp [joined, tokens_of_pending pending_nil], fun m _ => Nat.zero_le m⟩
  | cons p fs ih =>
    have hfs' : ∀ q ∈ fs, IsFrame F q.1 q.2 := fun q hq => hfs q (List.mem_cons_of_mem p hq)
    by_cases hn : n = 0
    · refine ⟨0, ?_, fun m _ => Nat.zero_le m⟩
      subst hn
      obtain ⟨k, hk, hle⟩ := ih hfs' ho.tail 0
      obtain rfl : k = 0 := Nat.le_zero.mp (hle 0 (Nat.zero_le _))
      obtain ⟨hl, ha⟩ := hfs p List.mem_cons_self
      rw [List.drop_zero, joined_cons, tokens_frame hl ha, found_frame]
      simpa using hk
    · -- nothing is found before the end of the frame the place is in or behind
      obtain ⟨k, hk, hle⟩ := ih hfs' ho.tail (n - p.2.length)
      refine ⟨k + 1, ?_, ?_⟩
      · rw [List.drop_succ_cons, ← hk]
        have hskip : ∀ i < p.2.length - n, i + F.window ≤ ((joined (p :: fs)).drop n).length →
            F.accept ((((joined (p :: fs)).drop n).drop i).take F.window) = none := by
          intro i hi hlen
          by_contra ha
          rw [List.drop_drop] at ha
          obtain ⟨m, -, hs⟩ := ho (n + i) (by simp at hlen ⊢; omega) ha
          cases m with
          | zero => simp at hs; omega
          | succ m => simp at hs; omega
        rw [found_drop hskip, List.drop_drop, joined_cons, List.drop_append]
        rw [List.drop_eq_nil_of_le (by omega), List.nil_append]
        congr 3
        omega
      · intro m hm
        cases m with
        | zero => simp at hm; omega
        | succ m => exact Nat.succ_le_succ (hle m (by simp at hm; omega))

/-- **Back in step.** After the remainder of anything else, one frame at most
is found that is none of them, and all are found that start at or after the
length `n` of the longest frame there can be. -/
theorem found_after_rest {fs : List (H × List α)} (hfs : ∀ p ∈ fs, IsFrame F p.1 p.2) (ho : OnlyStarts F fs)
    {n : Nat} (hn : ∀ w h, F.accept w = some h → F.size h ≤ n) {r : List α} (hr : Pending F r) :
    ∃ stray k, found (tokens F (r ++ joined fs)) = stray ++ fs.drop k ∧ stray.length ≤ 1 ∧
      ∀ m, n ≤ startOf fs m → k ≤ m := by
  induction r with
  | nil =>
    obtain ⟨k, hk, hle⟩ := found_from hfs ho 0
    exact ⟨[], k, by simpa using hk, by simp, fun m _ => hle m (Nat.zero_le _)⟩
  | cons a r ih =>
    rcases front_cases (F := F) (a :: r ++ joined fs) with hp | ⟨b, t, he, hw, ha⟩ | ⟨h, f, t, he, hf, ha⟩
    · refine ⟨[], fs.length, by rw [tokens_of_pending hp]; simp, by simp, ?_⟩
      intro m hm
      -- too little has come for a late frame to start
      have hle := startOf_le fs m
      rcases hp with hp | ⟨h, ha, hp⟩
      · cases fs with
        | nil => exact Nat.zero_le m
        | cons p fs =>
          have h1 := (hfs p List.mem_cons_self).1
          have h2 := F.window_le p.1
          simp at hp
          omega
      · have := hn _ h ha
        simp at hp
        omega
    · obtain ⟨rfl, rfl⟩ : a = b ∧ r ++ joined fs = t := by simpa using he
      obtain ⟨stray, k, h1, h2, h3⟩ := ih (hr.tail ha)
      rw [List.cons_append] at hw ha
      exact ⟨stray, k, by rw [List.cons_append, tokens_skip hw ha, found_skip, h1], h2, h3⟩
    · -- the frame that starts here ends among `fs`, less than its length after their beginning
      have hsize : (a :: r).length ≤ f.length := by
        have hw := F.window_le h
        have := hr.overrun (by rw [he, List.take_append_of_le_length (by omega), ha])
        omega
      have ht : t = (joined fs).drop (f.length - (a :: r).length) := by
        have := congrArg (List.drop f.length) he
        rw [List.drop_left, List.drop_append, List.drop_eq_nil_of_le hsize, List.nil_append] at this
        exact this.symm
      obtain ⟨k, h1, h2⟩ := found_from hfs ho (f.length - (a :: r).length)
      refine ⟨[(h, f)], k, ?_, by simp, fun m hm => h2 m ?_⟩
      · rw [he, tokens_frame hf ha, found_frame, ht, h1]
        rfl
      · have := hn _ h ha
        omega

end UsbMux.Framing

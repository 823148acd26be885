import Patchwork.Proofs.CharacterReferences

/-! A text and its segments hold the same characters. Literals that are joined by the tokens of sites are told
apart again, with the sites between them; and the segments of any text, each written as it was read, are the text. -/
namespace Patchwork.Markup

variable {cs numeral rest : List Char} {index : Nat} {literals : List (List Char)} {numbers : List Nat}

/-- A segment that stands for something: characters, or a site whose number its numeral spells. -/
def Segment.Genuine : Segment → Prop
  | literal cs => cs ≠ []
  | site index numeral => Text.Numeral 10 numeral index ∧ index < 1 <<< 64

/-- Literals with the token of a site between each one and the next. -/
def joined : List (List Char) → List Nat → List Char
  | literal :: literals, n :: numbers => literal ++ (siteToken n ++ joined literals numbers)
  | literals, _ => literals.flatten

/-- Literals with a site between each one and the next, as segments. -/
def alternating : List (List Char) → List Nat → List Segment
  | literal :: literals, n :: numbers =>
      .literal literal :: .site n (Text.decimal n) :: alternating literals numbers
  | literals, _ => literals.map .literal

theorem literalUnlessEmpty_eq_filter (cs : List Char) :
    literalUnlessEmpty cs = [Segment.literal cs].filter (· ≠ .literal []) := by
  cases cs <;> rfl

/-- Joined literals are told apart again. The induction is on the sites, and each token is cut out of what is left. -/
theorem segments_joined (unopened : ∀ literal ∈ literals, siteOpen ∉ literal) (fit : ∀ n ∈ numbers, n < 1 <<< 64)
    (between : literals.length = numbers.length + 1) :
    segments (joined literals numbers) = (alternating literals numbers).filter (· ≠ .literal []) := by
  induction numbers generalizing literals with
  | nil =>
      obtain ⟨literal, rfl⟩ := List.length_eq_one_iff.mp between
      have plain := unopened literal (List.mem_singleton_self _)
      simp [joined, alternating, Template.segments_of_plain plain, literalUnlessEmpty_eq_filter]
  | cons n numbers ih =>
      obtain ⟨literal, literals, rfl⟩ := List.exists_cons_of_length_eq_add_one between
      obtain ⟨plain, unopened⟩ := List.forall_mem_cons.mp unopened
      obtain ⟨fits, fit⟩ := List.forall_mem_cons.mp fit
      have further := ih unopened fit (Nat.succ.inj between)
      have parts : alternating (literal :: literals) (n :: numbers) =
          [.literal literal] ++ ([.site n (Text.decimal n)] ++ alternating literals numbers) := rfl
      rw [joined, segments_append_token fits, Template.segments_of_plain plain, literalUnlessEmpty_eq_filter, further,
        parts, List.filter_append, List.filter_append]
      rfl

theorem of_siteAfter? (read : siteAfter? cs = some (index, numeral, rest)) :
    (Segment.site index numeral).Genuine ∧ cs = numeral ++ siteClose :: rest := by
  unfold siteAfter? at read
  split at read
  next => cases read
  next found =>
    obtain ⟨_, spelled, same⟩ := Option.map_eq_some_iff.mp read
    cases same
    obtain ⟨value, fits⟩ := Option.filter_eq_some_iff.mp spelled
    exact ⟨⟨(Text.numeral?_eq_some (by decide)).mp value, of_decide_eq_true fits⟩, (Text.cut_of_stopped found).2⟩

theorem flatMap_source_literalUnlessEmpty (cs : List Char) : (literalUnlessEmpty cs).flatMap Segment.source = cs := by
  cases cs <;> simp [literalUnlessEmpty, Segment.source]

theorem flatMap_source_segments (cs : List Char) : (segments cs).flatMap Segment.source = cs := by
  fun_induction segments cs with
  | case1 cs => exact flatMap_source_literalUnlessEmpty cs
  | case2 cs before opening after opened index numeral rest read ih =>
      have token := (of_siteAfter? read).2
      have whole : cs = before ++ siteOpen :: after := (Text.cut_of_stopped opened).2
      rw [List.flatMap_append, List.flatMap_cons, flatMap_source_literalUnlessEmpty, ih, whole, token]
      simp [Segment.source]
  | case3 cs before opening after opened unread ih =>
      have whole : before ++ cs.dropWhile (· ≠ siteOpen) = cs := List.takeWhile_append_dropWhile
      rw [opened] at whole
      rw [List.flatMap_cons, ih, Segment.source, List.append_assoc]
      exact whole

theorem genuine_of_mem_literalUnlessEmpty {segment : Segment} (member : segment ∈ literalUnlessEmpty cs) :
    segment.Genuine := by
  cases cs with
  | nil => cases member
  | cons c cs =>
      cases List.mem_singleton.mp member
      exact List.cons_ne_nil c cs

theorem genuine_of_mem_segments {segment : Segment} (member : segment ∈ segments cs) : segment.Genuine := by
  fun_induction segments cs with
  | case1 => exact genuine_of_mem_literalUnlessEmpty member
  | case2 cs before opening after opened index numeral rest read ih =>
      rcases List.mem_append.mp member with first | later
      · exact genuine_of_mem_literalUnlessEmpty first
      rcases List.mem_cons.mp later with rfl | further
      · exact (of_siteAfter? read).1
      · exact ih further
  | case3 cs before opening after opened unread ih =>
      rcases List.mem_cons.mp member with rfl | further
      · exact List.append_ne_nil_of_right_ne_nil before (List.cons_ne_nil opening [])
      · exact ih further

/-- Cutting is exact. Joined literals that hold no opening character are read as they were, the empty ones apart, with
the sites in order; and the segments of any text make up that text, so no character is lost or read twice. -/
theorem segments_exact :
    (∀ (literals : List (List Char)) (numbers : List Nat), (∀ literal ∈ literals, siteOpen ∉ literal) →
        (∀ n ∈ numbers, n < 1 <<< 64) → literals.length = numbers.length + 1 →
        segments (joined literals numbers) = (alternating literals numbers).filter (· ≠ .literal [])) ∧
      ∀ cs : List Char, (segments cs).flatMap Segment.source = cs ∧ ∀ segment ∈ segments cs, segment.Genuine := by
  constructor
  · intro literals numbers unopened fit between
    exact segments_joined unopened fit between
  · intro cs
    exact ⟨flatMap_source_segments cs, fun segment member => genuine_of_mem_segments member⟩

theorem digits_beside_sites_kept :
    ((∀ literal ∈ [['5', siteClose], [], ['b']], siteOpen ∉ literal) ∧ (∀ n ∈ [12, 0], n < 1 <<< 64) ∧
      [['5', siteClose], [], ['b']].length = [12, 0].length + 1) ∧
      segments (joined [['5', siteClose], [], ['b']] [12, 0]) =
        [.literal ['5', siteClose], .site 12 ['1', '2'], .site 0 ['0'], .literal ['b']] := by
  have unopened : ∀ literal ∈ [['5', siteClose], [], ['b']], siteOpen ∉ literal := by decide
  have fit : ∀ n ∈ [12, 0], n < 1 <<< 64 := by decide
  exact ⟨⟨unopened, fit, rfl⟩, (segments_exact.1 _ _ unopened fit rfl).trans (by decide)⟩

end Patchwork.Markup

import Mathlib
import Patchwork.Proofs.MarkupRoundTrip

/-! Every text is markup of some forest in normal form: texts are neither empty nor next to each other,
elements and attributes have names that markup can give them, and void elements have no children.
The scanner takes the text apart from its front on and leaves nothing of it, and no token can take the
forest under construction out of the normal form. -/
namespace Patchwork.Markup

namespace Entity

theorem decode_ne_nil (c : Char) (rest : List Char) : decode (c :: rest) ≠ [] := by
  rw [decode]
  split
  · split <;> simp
  · simp

end Entity

namespace Token

variable {cs rest : List Char} {c : Char}

/-- One turn of the scanner, at text that is not empty: the token that is read there, if any, and the text
that is left. -/
def turn (c : Char) (rest : List Char) : Option Token × List Char :=
  if startsComment (c :: rest) then (none, afterComment (rest.drop 1))
  else if startsClosing (c :: rest) then
    (some (.closing (nameOf (rest.drop 1))), (upTo '>' (afterName (rest.drop 1))).2)
  else if startsOpening (c :: rest) then
    let tagBody := body (afterName rest)
    (some (.opening (nameOf rest) tagBody.attributes tagBody.selfClosing), tagBody.rest)
  else (some (.text (Entity.decode (c :: textOf rest))), afterText rest)

theorem scan_cons (c : Char) (rest : List Char) :
    scan (c :: rest) = (turn c rest).1.toList ++ scan (turn c rest).2 := by
  rw [scan, turn]
  split_ifs <;> rfl

theorem afterName_suffix (cs : List Char) : afterName cs <:+ cs := List.dropWhile_suffix _

theorem trimStart_suffix (cs : List Char) : Text.trimStart cs <:+ cs := List.dropWhile_suffix _

theorem upTo_suffix (delimiter : Char) (cs : List Char) : (upTo delimiter cs).2 <:+ cs :=
  (List.drop_suffix 1 _).trans (List.dropWhile_suffix _)

theorem valueAt_suffix (cs : List Char) : (valueAt cs).2 <:+ cs := by
  unfold valueAt
  split
  next inner => exact (upTo_suffix _ inner).trans (List.suffix_cons _ inner)
  next inner => exact (upTo_suffix _ inner).trans (List.suffix_cons _ inner)
  next => exact List.dropWhile_suffix _

theorem assigned_suffix (cs : List Char) : (assigned cs).2 <:+ cs := by
  have trimmed := trimStart_suffix cs
  unfold assigned
  split
  next rest equal =>
    rw [equal] at trimmed
    have value := (valueAt_suffix _).trans (trimStart_suffix rest)
    exact value.trans ((List.suffix_cons _ rest).trans trimmed)
  next => exact trimmed

theorem afterText_suffix (cs : List Char) : afterText cs <:+ cs :=
  ⟨textOf cs, textOf_append_afterText cs⟩

theorem afterComment_suffix (cs : List Char) : afterComment cs <:+ cs := by
  fun_induction afterComment cs with
  | case1 rest => exact ⟨['-', '-', '>'], rfl⟩
  | case2 c rest _ ih => exact ih.trans (List.suffix_cons c rest)
  | case3 => exact List.suffix_rfl

theorem suffix_of_trimmed (trimmed : Text.trimStart cs = c :: rest) : rest <:+ cs := by
  have tail := List.suffix_cons c rest
  rw [← trimmed] at tail
  exact tail.trans (trimStart_suffix cs)

theorem body_suffix (cs : List Char) : (body cs).rest <:+ cs := by
  fun_induction body cs with
  | case1 => exact List.nil_suffix
  | case2 cs rest trimmed => exact suffix_of_trimmed trimmed
  | case3 cs rest _ trimmed => exact (List.drop_suffix 1 rest).trans (suffix_of_trimmed trimmed)
  | case4 cs rest _ trimmed _ ih => exact ih.trans (suffix_of_trimmed trimmed)
  | case5 cs rest trimmed _ _ ih => exact ih.trans (suffix_of_trimmed trimmed)
  | case6 cs c rest trimmed _ _ _ further ih =>
      have valued := (assigned_suffix _).trans (afterName_suffix rest)
      exact (ih.trans valued).trans (suffix_of_trimmed trimmed)

/-- A turn takes the first character at least, and all that it takes is in front of what it leaves. -/
theorem turn_suffix (c : Char) (rest : List Char) : (turn c rest).2 <:+ rest := by
  have dropped := List.drop_suffix 1 rest
  unfold turn
  split_ifs
  · exact (afterComment_suffix _).trans dropped
  · exact ((upTo_suffix _ _).trans (afterName_suffix _)).trans dropped
  · exact (body_suffix _).trans (afterName_suffix rest)
  · exact afterText_suffix rest

/-- The scanner takes the text apart turn by turn, and comes to its end with these tokens. -/
inductive Consumes : List Char → List Token → Prop
  | done : Consumes [] []
  | turn {c : Char} {piece rest : List Char} {token : Option Token} {tokens : List Token}
      (taken : turn c (piece ++ rest) = (token, rest)) (further : Consumes rest tokens) :
      Consumes (c :: (piece ++ rest)) (token.toList ++ tokens)

theorem consumes_scan (cs : List Char) : Consumes cs (scan cs) := by
  induction shorter : cs.length using Nat.strong_induction_on generalizing cs with
  | h n ih =>
    cases cs with
    | nil =>
        rw [scan_nil]
        exact .done
    | cons c rest =>
        obtain ⟨piece, split⟩ := turn_suffix c rest
        have less : (turn c rest).2.length < n := by
          have whole := congrArg List.length split
          simp only [List.length_append, List.length_cons] at whole shorter
          omega
        have taken : turn c (piece ++ (turn c rest).2) = ((turn c rest).1, (turn c rest).2) := by rw [split]
        have further := Consumes.turn taken (ih _ less (turn c rest).2 rfl)
        rwa [split, ← scan_cons] at further

theorem toNat_lt_of_isAlpha (letter : c.isAlpha = true) : c.toNat < 128 := by
  have either : (c.isUpper || c.isLower) = true := letter
  have value : c.val.toNat = c.toNat := rfl
  have z : 'z'.val.toNat = 122 := rfl
  have Z : 'Z'.val.toNat = 90 := rfl
  rcases (Bool.or_eq_true _ _).mp either with upper | lower
  · have within : c.val ≥ 'A'.val ∧ c.val ≤ 'Z'.val := of_decide_eq_true upper
    have last := within.2
    rw [UInt32.le_iff_toNat_le] at last
    omega
  · have within : (decide (c.val ≥ 'a'.val) && decide (c.val ≤ 'z'.val)) = true := lower
    have last := of_decide_eq_true ((Bool.and_eq_true _ _).mp within).2
    rw [UInt32.le_iff_toNat_le] at last
    omega

theorem letter_toLower (letter : c.isAlpha = true) : endsName c = false ∧
    c.toLower.isAlpha = true ∧ endsName c.toLower = false ∧ c.toLower.isUpper = false := by
  have ascii : ∀ n < 128, (Char.ofNat n).isAlpha = true → endsName (Char.ofNat n) = false ∧
      (Char.ofNat n).toLower.isAlpha = true ∧ endsName (Char.ofNat n).toLower = false ∧
      (Char.ofNat n).toLower.isUpper = false := by decide +kernel
  have holds := ascii c.toNat (toNat_lt_of_isAlpha letter)
  rw [Char.ofNat_toNat] at holds
  exact holds letter

theorem plain_toLower (inside : endsName c = false) :
    endsName c.toLower = false ∧ c.toLower.isUpper = false := by
  by_cases upper : c.isUpper = true
  · have letter : c.isAlpha = true := (Bool.or_eq_true _ _).mpr (.inl upper)
    exact (letter_toLower letter).2.2
  · have lower := Bool.eq_false_iff.mpr upper
    rw [toLower_of_not_isUpper lower]
    exact ⟨inside, lower⟩

theorem nameable_nameOf (inside : endsName c = false) (rest : List Char) : Nameable (nameOf (c :: rest)) := by
  have first : (!endsName c) = true := by simp [inside]
  constructor
  · simp [nameOf, first]
  · intro x member
    simp only [nameOf, String.toList_ofList, List.mem_map] at member
    obtain ⟨y, taken, rfl⟩ := member
    exact plain_toLower (by simpa using List.mem_takeWhile_imp taken)

theorem letter_nameOf (letter : c.isAlpha = true) (rest : List Char) :
    (nameOf (c :: rest)).toList.head?.any Char.isAlpha = true := by
  obtain ⟨inside, lower, -⟩ := letter_toLower letter
  simp [nameOf, inside, lower]

end Token

/-- An element's names: its tag starts with a letter, and all of them are names that markup can give. -/
structure Named (tag : String) (attributes : List (String × List Char)) : Prop where
  letter : tag.toList.head?.any Char.isAlpha = true
  tag : Nameable tag
  names : ∀ a ∈ attributes, Nameable a.1

def isText : Markup → Bool
  | text _ => true
  | element .. => false

def Apart (one two : Markup) : Prop := one.isText = true → two.isText = false

/-- Markup in normal form, at every depth. -/
inductive Normal : Markup → Prop
  | text {cs : List Char} (some : cs ≠ []) : Normal (.text cs)
  | element {tag : String} {attributes : List (String × List Char)} {children : List Markup}
      (named : Named tag attributes) (distinct : (attributes.map Prod.fst).Nodup)
      (childless : isVoid tag = true → children = []) (apart : children.IsChain Apart)
      (inner : ∀ child ∈ children, Normal child) : Normal (.element tag attributes children)

structure NormalAll (nodes : List Markup) : Prop where
  each : ∀ node ∈ nodes, Normal node
  apart : nodes.IsChain Apart

theorem Apart.symm {one two : Markup} (apart : Apart one two) : Apart two one := by
  intro second
  by_contra first
  rw [apart (by simpa using first)] at second
  contradiction

theorem NormalAll.reverse {nodes : List Markup} (normal : NormalAll nodes) : NormalAll nodes.reverse := by
  constructor
  · intro node member
    exact normal.each node (List.mem_reverse.mp member)
  · rw [List.isChain_reverse]
    exact normal.apart.imp fun _ _ => Apart.symm

theorem normalAll_nil : NormalAll [] := ⟨nofun, .nil⟩

theorem NormalAll.cons_element {nodes : List Markup} {node : Markup} (normal : NormalAll nodes) (first : Normal node)
    (element : node.isText = false) : NormalAll (node :: nodes) := by
  constructor
  · simpa using ⟨first, normal.each⟩
  · refine normal.apart.cons fun next _ texts => ?_
    rw [element] at texts
    contradiction

/-- A token out of which markup in normal form can be made. -/
inductive Token.Fit : Token → Prop
  | text {cs : List Char} (some : cs ≠ []) : Fit (.text cs)
  | opening {tag : String} {attributes : List (String × List Char)} {selfClosing : Bool}
      (named : Named tag attributes) : Fit (.opening tag attributes selfClosing)
  | closing {tag : String} : Fit (.closing tag)

namespace Token

variable {cs rest : List Char} {c : Char}

theorem nameable_body (cs : List Char) : ∀ a ∈ (body cs).attributes, Nameable a.1 := by
  fun_induction body cs with
  | case1 => exact List.forall_mem_nil _
  | case2 => exact List.forall_mem_nil _
  | case3 => exact List.forall_mem_nil _
  | case4 _ _ _ _ _ ih => exact ih
  | case5 _ _ _ _ _ ih => exact ih
  | case6 cs c rest trimmed notEnd notSlash notEquals further ih =>
      have dark := List.head?_dropWhile_not Text.isBlank cs
      rw [← Text.trimStart, trimmed] at dark
      rw [List.head?_cons] at dark
      have inside : endsName c = false := by simp [endsName, dark, notEnd, notSlash, notEquals]
      exact List.forall_mem_cons.mpr ⟨nameable_nameOf inside rest, ih⟩

theorem named_opening (opening : startsOpening (c :: rest) = true) :
    Named (nameOf rest) (body (afterName rest)).attributes := by
  unfold startsOpening at opening
  split at opening
  next first letters same =>
    obtain ⟨-, rfl⟩ := List.cons.inj same
    exact ⟨letter_nameOf opening letters, nameable_nameOf (letter_toLower opening).1 letters, nameable_body _⟩
  next => contradiction

theorem fit_turn {token : Token} (read : (turn c rest).1 = some token) : token.Fit := by
  unfold turn at read
  split_ifs at read with comment closing opening
  · cases read
    exact .closing
  · cases read
    exact .opening (named_opening opening)
  · cases read
    exact .text (Entity.decode_ne_nil _ _)

theorem Consumes.fit {tokens : List Token} (consumes : Consumes cs tokens) : ∀ token ∈ tokens, token.Fit := by
  induction consumes with
  | done => exact nofun
  | turn taken _ ih =>
      intro token member
      rcases List.mem_append.mp member with read | later
      · refine fit_turn ((congrArg Prod.fst taken).trans ?_)
        simpa using read
      · exact ih token later

end Token

namespace Builder

/-- An open element that may be closed at any time. -/
structure Opened (o : Open) : Prop where
  named : Named o.tag o.attributes
  distinct : (o.attributes.map Prod.fst).Nodup
  holds : isVoid o.tag = false
  inner : NormalAll o.children

/-- A forest under construction that is in normal form as far as it has come. -/
structure Sound (b : Builder) : Prop where
  roots : NormalAll b.roots
  opened : ∀ o ∈ b.openElements, Opened o

theorem sound_empty : Sound empty := ⟨normalAll_nil, nofun⟩

variable {b : Builder}

theorem Sound.onSiblings {f : List Markup → List Markup} (sound : b.Sound)
    (keeps : ∀ nodes, NormalAll nodes → NormalAll (f nodes)) : (b.onSiblings f).Sound := by
  obtain ⟨roots, _ | ⟨o, outer⟩⟩ := b
  · exact ⟨keeps roots sound.roots, nofun⟩
  · obtain ⟨innermost, others⟩ := List.forall_mem_cons.mp sound.opened
    refine ⟨sound.roots, List.forall_mem_cons.mpr ⟨?_, others⟩⟩
    exact { innermost with inner := keeps o.children innermost.inner }

/-- Text is appended to the text in front of it, so that no two texts meet. -/
theorem normalAll_pushText {cs : List Char} (some : cs ≠ []) {nodes : List Markup} (normal : NormalAll nodes) :
    NormalAll (pushText cs nodes) := by
  obtain ⟨each, apart⟩ := normal
  unfold pushText
  split
  next before rest =>
    obtain ⟨-, others⟩ := List.forall_mem_cons.mp each
    have longer : before ++ cs ≠ [] := by simp [some]
    constructor
    · exact List.forall_mem_cons.mpr ⟨.text longer, others⟩
    · apply apart.imp_head
      intro next after
      exact after
  next other =>
    refine ⟨List.forall_mem_cons.mpr ⟨.text some, each⟩, apart.cons fun next first _ => ?_⟩
    cases next with
    | element => rfl
    | text before =>
        obtain ⟨rest, rfl⟩ := List.head?_eq_some_iff.mp first
        exact absurd rfl (other before rest)

theorem Sound.addText (sound : b.Sound) {cs : List Char} (some : cs ≠ []) : (b.addText cs).Sound :=
  sound.onSiblings fun _ normal => normalAll_pushText some normal

theorem Sound.addElement {o : Open} (sound : b.Sound) (named : Named o.tag o.attributes)
    (distinct : (o.attributes.map Prod.fst).Nodup) (childless : isVoid o.tag = true → o.children = [])
    (inner : NormalAll o.children) : (b.addElement o).Sound := by
  have complete : Normal (.element o.tag o.attributes o.children.reverse) := by
    refine .element named distinct ?_ inner.reverse.apart inner.reverse.each
    simpa using childless
  exact sound.onSiblings fun _ normal => normal.cons_element complete rfl

theorem Sound.pop (sound : b.Sound) : b.pop.Sound := by
  obtain ⟨roots, _ | ⟨o, outer⟩⟩ := b
  · exact sound
  · obtain ⟨innermost, others⟩ := List.forall_mem_cons.mp sound.opened
    have rest : Sound ⟨roots, outer⟩ := ⟨sound.roots, others⟩
    refine rest.addElement innermost.named innermost.distinct ?_ innermost.inner
    simp [innermost.holds]

theorem Sound.popMany (sound : b.Sound) (notice : String → Option Report) (n : Nat) :
    (b.popMany notice n).value.Sound := by
  induction n generalizing b with
  | zero => exact sound
  | succ n ih =>
      rw [Builder.popMany]
      split
      · exact ih sound.pop
      · exact ih sound.pop

theorem firstOfEach_spec (attributes : List (String × List Char)) :
    ((firstOfEach attributes).map Prod.fst).Nodup ∧ ∀ a ∈ firstOfEach attributes, a ∈ attributes := by
  induction attributes with
  | nil => exact ⟨List.nodup_nil, nofun⟩
  | cons a rest ih =>
      obtain ⟨name, value⟩ := a
      obtain ⟨distinct, written⟩ := ih
      rw [firstOfEach]
      constructor
      · rw [List.map_cons, List.nodup_cons]
        constructor
        · simp
        · exact distinct.sublist (List.filter_sublist.map _)
      · intro other member
        rcases List.mem_cons.mp member with rfl | later
        · exact List.mem_cons_self
        · exact List.mem_cons_of_mem _ (written other (List.mem_of_mem_filter later))

theorem Sound.openTag {tag : String} {attributes : List (String × List Char)} (sound : b.Sound)
    (named : Named tag attributes) (selfClosing : Bool) : (b.openTag tag attributes selfClosing).value.Sound := by
  obtain ⟨distinct, written⟩ := firstOfEach_spec attributes
  have kept : Named tag (firstOfEach attributes) :=
    { named with names := fun a member => named.names a (written a member) }
  unfold Builder.openTag
  dsimp only
  split
  · exact sound.addElement kept distinct (fun _ => rfl) normalAll_nil
  next other =>
    have holds : isVoid tag = false := by simp at other; exact other.2
    exact ⟨sound.roots, List.forall_mem_cons.mpr ⟨⟨kept, distinct, holds, normalAll_nil⟩, sound.opened⟩⟩

/-- No token takes the forest out of the normal form. -/
theorem Sound.add {token : Token} (sound : b.Sound) (fit : token.Fit) : (b.add token).value.Sound := by
  cases fit with
  | text some => exact sound.addText some
  | opening named => exact sound.openTag named _
  | closing =>
      unfold Builder.add Builder.closeTag
      dsimp only
      split
      · exact sound.popMany _ _
      · exact sound

theorem Sound.grow {tokens : List Token} (sound : b.Sound) (fit : ∀ token ∈ tokens, token.Fit) :
    (b.grow tokens).Sound := by
  induction tokens generalizing b with
  | nil => exact sound
  | cons token rest ih =>
      obtain ⟨first, others⟩ := List.forall_mem_cons.mp fit
      exact ih (sound.add first) others

end Builder

/-- A part of what markup holds. -/
inductive Mark
  | char (c : Char)
  | tag (name : String) (attributes : List (String × List Char))
deriving DecidableEq

mutual

def marks : Markup → List Mark
  | text cs => cs.map .char
  | element tag attributes children => .tag tag attributes :: marksAll children

def marksAll : List Markup → List Mark
  | [] => []
  | node :: nodes => marks node ++ marksAll nodes

end

theorem marksAll_append (one two : List Markup) : marksAll (one ++ two) = marksAll one ++ marksAll two := by
  induction one with
  | nil => rfl
  | cons node nodes ih => rw [List.cons_append, marksAll, marksAll, ih, List.append_assoc]

theorem marksAll_reverse_cons (node : Markup) (nodes : List Markup) :
    marksAll (node :: nodes).reverse = marksAll nodes.reverse ++ marks node := by
  rw [List.reverse_cons, marksAll_append, marksAll, marksAll, List.append_nil]

/-- What a token says that markup holds. -/
def Token.marks : Token → List Mark
  | text cs => cs.map .char
  | opening tag attributes _ => [.tag tag (Builder.firstOfEach attributes)]
  | closing _ => []

namespace Builder

variable {b : Builder}

/-- What a forest under construction holds. What is open comes after the roots, from the outside inwards. -/
def marks (b : Builder) : List Mark :=
  marksAll b.roots.reverse ++
    b.openElements.reverse.flatMap fun o => .tag o.tag o.attributes :: marksAll o.children.reverse

theorem marks_onSiblings {f : List Markup → List Markup} {more : List Mark}
    (adds : ∀ nodes, marksAll (f nodes).reverse = marksAll nodes.reverse ++ more) (b : Builder) :
    (b.onSiblings f).marks = b.marks ++ more := by
  obtain ⟨roots, _ | ⟨o, outer⟩⟩ := b
  · simp only [onSiblings, marks, List.reverse_nil, List.flatMap_nil, List.append_nil, adds]
  · simp only [onSiblings, marks, List.reverse_cons, List.flatMap_append, List.flatMap_singleton, adds,
      List.append_assoc, List.cons_append]

theorem marks_addText (cs : List Char) (b : Builder) : (b.addText cs).marks = b.marks ++ cs.map .char := by
  refine marks_onSiblings (fun nodes => ?_) b
  unfold pushText
  split
  next before rest =>
    rw [marksAll_reverse_cons, marksAll_reverse_cons, Markup.marks, Markup.marks, List.map_append, List.append_assoc]
  next => rw [marksAll_reverse_cons, Markup.marks]

theorem marks_addElement (o : Open) (b : Builder) :
    (b.addElement o).marks = b.marks ++ .tag o.tag o.attributes :: marksAll o.children.reverse :=
  marks_onSiblings (fun nodes => by rw [marksAll_reverse_cons, Markup.marks]) b

theorem marks_pop (b : Builder) : b.pop.marks = b.marks := by
  obtain ⟨roots, _ | ⟨o, outer⟩⟩ := b
  · rfl
  · refine (marks_addElement o _).trans ?_
    simp only [marks, List.reverse_cons, List.flatMap_append, List.flatMap_singleton, List.append_assoc]

theorem marks_popMany (notice : String → Option Report) (n : Nat) (b : Builder) :
    (b.popMany notice n).value.marks = b.marks := by
  induction n generalizing b with
  | zero => rfl
  | succ n ih =>
      rw [popMany]
      split
      · exact (ih b.pop).trans (marks_pop b)
      · exact (ih b.pop).trans (marks_pop b)

theorem marks_openTag (tag : String) (attributes : List (String × List Char)) (selfClosing : Bool) (b : Builder) :
    (b.openTag tag attributes selfClosing).value.marks = b.marks ++ [.tag tag (firstOfEach attributes)] := by
  unfold openTag
  dsimp only
  split
  · exact marks_addElement _ b
  · simp only [marks, List.reverse_cons, List.flatMap_append, List.flatMap_singleton, List.append_assoc]
    rfl

theorem marks_add (b : Builder) (token : Token) : (b.add token).value.marks = b.marks ++ token.marks := by
  cases token with
  | text cs => exact marks_addText cs b
  | opening tag attributes selfClosing => exact marks_openTag ..
  | closing tag =>
      rw [Token.marks, List.append_nil, add, closeTag]
      split
      · exact marks_popMany ..
      · rfl

theorem marks_grow (tokens : List Token) (b : Builder) :
    (b.grow tokens).marks = b.marks ++ tokens.flatMap Token.marks := by
  induction tokens generalizing b with
  | nil => exact (List.append_nil _).symm
  | cons token rest ih =>
      rw [List.flatMap_cons, ← List.append_assoc, ← marks_add]
      exact ih (b.add token).value

theorem length_openElements_pop (b : Builder) : b.pop.openElements.length = b.openElements.length - 1 := by
  obtain ⟨roots, _ | ⟨o, _ | ⟨p, outer⟩⟩⟩ := b <;> rfl

theorem length_openElements_popMany (notice : String → Option Report) (n : Nat) (b : Builder) :
    (b.popMany notice n).value.openElements.length = b.openElements.length - n := by
  induction n generalizing b with
  | zero => rfl
  | succ n ih =>
      have fewer : b.pop.openElements.length - n = b.openElements.length - (n + 1) := by
        rw [length_openElements_pop, Nat.sub_sub, Nat.add_comm]
      rw [popMany]
      split
      · exact (ih b.pop).trans fewer
      · exact (ih b.pop).trans fewer

/-- What is open in the end is ended, and nothing is lost. -/
theorem marksAll_finish (b : Builder) : marksAll b.finish.value = b.marks := by
  have whole := marks_popMany (some ∘ .closedAtEnd) b.openElements.length b
  have none := length_openElements_popMany (some ∘ .closedAtEnd) b.openElements.length b
  rw [Nat.sub_self, List.length_eq_zero_iff] at none
  rw [marks, none, List.reverse_nil, List.flatMap_nil, List.append_nil] at whole
  exact whole

end Builder

/-- Every text is markup of a forest in normal form. The scanner comes to the end of the text, turn by turn, each
taking one character or more, and the forest is made of the tokens: it holds what they say, in their order. -/
theorem parse_normal (cs : List Char) : ∃ tokens, Token.Consumes cs tokens ∧ parse cs = ofTokens tokens ∧
    marksAll (parse cs).value = tokens.flatMap Token.marks ∧ NormalAll (parse cs).value := by
  have consumes := Token.consumes_scan cs
  have grown := Builder.sound_empty.grow consumes.fit
  have built : (parse cs).value = (Builder.empty.grow (Token.scan cs)).finish.value := by
    rw [parse, ofTokens, Logged.value_bind, Builder.value_foldlM]
  refine ⟨Token.scan cs, consumes, rfl, ?_, ?_⟩
  · rw [built, Builder.marksAll_finish, Builder.marks_grow]
    rfl
  · rw [built]
    exact (grown.popMany _ _).roots.reverse

/-- Markup of a list that is not ended, nor is the last tag in it. Its own tag has an attribute twice and a stray
slash, and something is closed that was not open. -/
def unended : List Char := "<UL Id=a id='b' / =>one &amp <Br>two</i>&lt;<LI><B =x".toList

def ended : Markup := .element "ul" [("id", ['a'])] [.text "one &amp ".toList, .element "br" [] [],
  .text "two<".toList, .element "li" [] [.element "b" [("x", [])] []]]

theorem parse_unended : (parse unended).value = [ended] := by cbv

theorem unended_normal : NormalAll [ended] ∧
    ∃ tokens, Token.Consumes unended tokens ∧ tokens.flatMap Token.marks = ended.marks := by
  obtain ⟨tokens, consumes, -, holds, normal⟩ := parse_normal unended
  rw [parse_unended, marksAll, marksAll, List.append_nil] at holds
  rw [parse_unended] at normal
  exact ⟨normal, tokens, consumes, holds.symm⟩

end Patchwork.Markup

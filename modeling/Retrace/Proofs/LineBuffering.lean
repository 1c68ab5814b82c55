import Retrace.Channel.Terminal
import Retrace.Channel.Transcript
import Retrace.Proofs.Searches

/-!
# Lines do not show

Input is read in lines, but a program takes characters. Both channels of this library take them from
a console (`OnConsole`), and as long as the console can prompt, a program sees one list of
characters, `Input.ahead`: it takes from the front of it and puts back in front of it, and where a
line ended and the next one had to be read does not show. Only a line that is no text shows. Once
all characters before it have been asked for, it is reported and lost, and these characters are
still there (`Unbuffered`).
-/

namespace Retrace

/-! ### Channels on consoles -/

/-- A channel whose input is that of a console, and whose output leaves the input alone. -/
class OnConsole (π : Type) [Channel π] where
  rule : Prompting
  console : π → Console
  takeChar (p : π) :
    (Channel.takeChar p).result = ((console p).takeChar rule).result ∧
      console (Channel.takeChar p).state = ((console p).takeChar rule).state
  takeDigit (p : π) :
    (Channel.takeDigit p).result = ((console p).takeDigit rule).result ∧
      console (Channel.takeDigit p).state = ((console p).takeDigit rule).state
  returnChar (c : Char) (p : π) : console (Channel.returnChar c p) = (console p).returnChar c
  returnDigit (d : Nat) (p : π) : console (Channel.returnDigit d p) = (console p).returnDigit d
  emit (text : String) (p : π) :
    (console (Channel.emit text p).state).input = (console p).input ∧
      (console (Channel.emit text p).state).sink.capacity = (console p).sink.capacity
  retract (text : String) (p : π) :
    (console (Channel.retract text p).state).input = (console p).input ∧
      (console (Channel.retract text p).state).sink.capacity = (console p).sink.capacity

theorem Sink.capacity_write (text : String) (s : Sink) :
    (s.write text).state.capacity = s.capacity := by
  unfold write
  cases s.capacity with
  | none => rfl
  | some room =>
    simp only
    split <;> rfl

instance : OnConsole Terminal where
  rule := .always
  console := Terminal.console
  takeChar _ := ⟨rfl, rfl⟩
  takeDigit _ := ⟨rfl, rfl⟩
  returnChar _ _ := rfl
  returnDigit _ _ := rfl
  emit text t := ⟨rfl, Sink.capacity_write text t.console.sink⟩
  retract text t := ⟨rfl, Sink.capacity_write (Terminal.erasure text) t.console.sink⟩

instance : OnConsole Transcript where
  rule := .whenDry
  console := Transcript.console
  takeChar _ := ⟨rfl, rfl⟩
  takeDigit _ := ⟨rfl, rfl⟩
  returnChar _ _ := rfl
  returnDigit _ _ := rfl
  emit _ _ := ⟨rfl, rfl⟩
  retract _ _ := ⟨rfl, rfl⟩

namespace Channel

inductive Request where
  | emit (text : String)
  | takeChar
  | takeDigit
  | retract (text : String)
  | returnChar (c : Char)
  | returnDigit (d : Nat)
  deriving DecidableEq, Repr

variable {π : Type} [Channel π]

/-- The channel after a request, whatever the answer was. -/
def after (p : π) : Request → π
  | .emit text => (emit text p).state
  | .takeChar => (takeChar p).state
  | .takeDigit => (takeDigit p).state
  | .retract text => (retract text p).state
  | .returnChar c => returnChar c p
  | .returnDigit d => returnDigit d p

def afterAll (p : π) (requests : List Request) : π := requests.foldl after p

end Channel

namespace OnConsole

variable {π : Type} [Channel π] [OnConsole π]

def input (p : π) : Input := (console p).input

/-- The channel has always room for a prompt. -/
def Unlimited (p : π) : Prop := (console p).sink.capacity = none

/-- Both channels take characters from their input in the same way; they differ only in what they
prompt, which a sink without a limit cannot refuse. -/
theorem takeChar_eq {p : π} (hp : Unlimited p) :
    (Channel.takeChar p).result = (input p).next.result ∧
      input (Channel.takeChar p).state = (input p).next.state ∧
      Unlimited (Channel.takeChar p).state := by
  obtain ⟨hresult, hstate⟩ := OnConsole.takeChar p
  obtain ⟨sink, htake, hsink, _⟩ := Console.takeChar_of_next (rule π) hp
  rw [htake] at hresult hstate
  refine ⟨hresult, congrArg Console.input hstate, ?_⟩
  rw [Unlimited, hstate]
  exact hsink

/-- As for characters: a search of the input decides what a channel answers and what it then
shows. -/
theorem takeDigit_eq {p : π} (hp : Unlimited p) {taken : List Char} {result : Except Fault Nat}
    {i : Input} (h : (input p).Search taken result i) :
    (Channel.takeDigit p).result = result ∧
      input (Channel.takeDigit p).state = i.restored taken result ∧
      Unlimited (Channel.takeDigit p).state := by
  obtain ⟨hresult, hstate⟩ := OnConsole.takeDigit p
  obtain ⟨sink, htake, hsink, _⟩ := Console.takeDigit_of_search (rule π) h hp
  rw [htake] at hresult hstate
  refine ⟨hresult, congrArg Console.input hstate, ?_⟩
  rw [Unlimited, hstate]
  exact hsink

theorem Unlimited.after {p : π} (hp : Unlimited p) (request : Channel.Request) :
    Unlimited (Channel.after p request) := by
  cases request with
  | emit text => exact (OnConsole.emit text p).2.trans hp
  | retract text => exact (OnConsole.retract text p).2.trans hp
  | takeChar => exact (takeChar_eq hp).2.2
  | takeDigit =>
    obtain ⟨taken, result, i, hsearch⟩ := (input p).exists_search
    exact (takeDigit_eq hp hsearch).2.2
  | returnChar c =>
    show (console (Channel.returnChar c p)).sink.capacity = none
    rw [OnConsole.returnChar]
    exact hp
  | returnDigit d =>
    show (console (Channel.returnDigit d p)).sink.capacity = none
    rw [OnConsole.returnDigit]
    exact hp

theorem Unlimited.afterAll {p : π} (hp : Unlimited p) (requests : List Channel.Request) :
    Unlimited (Channel.afterAll p requests) := by
  induction requests generalizing p with
  | nil => exact hp
  | cons request rest ih => exact ih (hp.after request)

/-! ### Taking -/

/-- The channel has `text` ahead, and the lines `lines` are blocked. -/
def Shows (p : π) (text : List Char) (lines : List (List UInt8)) : Prop :=
  (input p).ahead = text ∧ (input p).blocked = lines

section Taking

variable {p : π} (hp : Unlimited p)

include hp

/-- Pending characters and decodable lines are one queue, from which a read takes the head. -/
theorem takeChar_of_cons {c : Char} {rest : List Char} (h : (input p).ahead = c :: rest) :
    (Channel.takeChar p).result = .ok c ∧
      Shows (Channel.takeChar p).state rest (input p).blocked := by
  obtain ⟨hresult, hstate, _⟩ := takeChar_eq hp
  rw [Shows, hresult, hstate]
  rcases (input p).next_cases with
    ⟨c', i, hnext, hahead, hblocked⟩ | ⟨_, hnil, _⟩ | ⟨_, _, _, hnil, _⟩
  · rw [h] at hahead
    injection hahead with hc hrest
    rw [hnext]
    exact ⟨congrArg Except.ok hc.symm, hrest.symm, hblocked⟩
  · cases h.symm.trans hnil
  · cases h.symm.trans hnil

theorem takeChar_of_exhausted (hahead : (input p).ahead = []) (hblocked : (input p).blocked = []) :
    (Channel.takeChar p).result = .error .inputExhausted ∧
      input (Channel.takeChar p).state = input p := by
  obtain ⟨hresult, hstate, _⟩ := takeChar_eq hp
  rw [hresult, hstate]
  rcases (input p).next_cases with ⟨_, _, _, hcons, _⟩ | ⟨hnext, _⟩ | ⟨_, _, _, _, hcons⟩
  · cases hahead.symm.trans hcons
  · rw [hnext]
    exact ⟨rfl, rfl⟩
  · cases hblocked.symm.trans hcons

/-- A line that is no text is read off the source, although the read fails. -/
theorem takeChar_of_blocked {line : List UInt8} {lines : List (List UInt8)}
    (hahead : (input p).ahead = []) (hblocked : (input p).blocked = line :: lines) :
    (Channel.takeChar p).result = .error (.stream .invalidText) ∧
      input (Channel.takeChar p).state = ⟨[], lines.flatten⟩ := by
  obtain ⟨hresult, hstate, _⟩ := takeChar_eq hp
  rw [hresult, hstate]
  rcases (input p).next_cases with ⟨_, _, _, hcons, _⟩ | ⟨_, _, hnil, _⟩ | ⟨_, _, hnext, _, hcons⟩
  · cases hahead.symm.trans hcons
  · cases hblocked.symm.trans hnil
  · rw [hblocked] at hcons
    injection hcons with _ hlines
    rw [hnext, hlines]
    exact ⟨rfl, rfl⟩

/-- The characters in front of the first digit are dropped, across line ends too. -/
theorem takeDigit_of_digit {front rest : List Char} {c : Char}
    (h : (input p).ahead = front ++ c :: rest) (hfront : ∀ x ∈ front, x.isDigit = false)
    (hc : c.isDigit = true) :
    (Channel.takeDigit p).result = .ok (c.toNat - '0'.toNat) ∧
      Shows (Channel.takeDigit p).state rest (input p).blocked := by
  replace hc := Text.digit?_of_isDigit hc
  simp only [← Text.digit?_eq_none_iff] at hfront
  rcases (input p).search_cases with ⟨front', c', d', i, hsearch, hfront', hc', hahead, hblocked⟩ |
    ⟨_, hnone, _⟩ | ⟨_, _, _, hnone, _⟩
  · obtain ⟨hresult, hstate, _⟩ := takeDigit_eq hp hsearch
    rw [h] at hahead
    obtain ⟨rfl, hrest⟩ := Console.first_digit_unique hahead hfront hfront' hc hc'
    rw [hc'] at hc
    rw [Shows, hresult, hstate]
    exact ⟨congrArg Except.ok (Option.some.inj hc), hrest.symm, hblocked⟩
  · cases hc.symm.trans (hnone c (by simp [h]))
  · cases hc.symm.trans (hnone c (by simp [h]))

/-- Without a digit ahead nothing is lost: what was passed over is pending afterwards, with no bytes
left behind it. -/
theorem takeDigit_of_exhausted (hnone : ∀ x ∈ (input p).ahead, x.isDigit = false)
    (hblocked : (input p).blocked = []) :
    (Channel.takeDigit p).result = .error .inputExhausted ∧
      input (Channel.takeDigit p).state = ⟨(input p).ahead, []⟩ := by
  simp only [← Text.digit?_eq_none_iff] at hnone
  rcases (input p).search_cases with ⟨front, c, d, i, _, _, hc, hahead, _⟩ | ⟨hsearch, _⟩ |
    ⟨_, _, _, _, hcons⟩
  · cases hc.symm.trans (hnone c (by simp [hahead]))
  · obtain ⟨hresult, hstate, _⟩ := takeDigit_eq hp hsearch
    refine ⟨hresult, hstate.trans ?_⟩
    simp [Input.restored, Input.giveBackAll, List.reverseAux_eq]
  · cases hblocked.symm.trans hcons

/-- A search that runs into a line that is no text gives back what it passed over, but that line is
gone. -/
theorem takeDigit_of_blocked (hnone : ∀ x ∈ (input p).ahead, x.isDigit = false)
    {line : List UInt8} {lines : List (List UInt8)} (hblocked : (input p).blocked = line :: lines) :
    (Channel.takeDigit p).result = .error (.stream .invalidText) ∧
      input (Channel.takeDigit p).state = ⟨(input p).ahead, lines.flatten⟩ := by
  simp only [← Text.digit?_eq_none_iff] at hnone
  rcases (input p).search_cases with ⟨front, c, d, i, _, _, hc, hahead, _⟩ | ⟨_, _, hnil⟩ |
    ⟨_, _, hsearch, _, hcons⟩
  · cases hc.symm.trans (hnone c (by simp [hahead]))
  · cases hblocked.symm.trans hnil
  · obtain ⟨hresult, hstate, _⟩ := takeDigit_eq hp hsearch
    rw [hblocked] at hcons
    injection hcons with _ hlines
    refine ⟨hresult, hstate.trans ?_⟩
    simp [Input.restored, Input.giveBackAll, List.reverseAux_eq, hlines]

end Taking

/-! ### The whole account -/

/-- A channel takes and puts back characters as if they came in one piece. -/
structure Unbuffered (p : π) : Prop where
  /-- If the unread bytes are text, nothing is blocked. -/
  readable : (input p).Readable ↔ (input p).blocked = []
  /-- Then the queue and the text of these bytes are what is ahead. -/
  remaining : (input p).Readable → (input p).ahead = (input p).remaining
  takeChar : ∀ c rest, (input p).ahead = c :: rest →
    (Channel.takeChar p).result = .ok c ∧
      Shows (Channel.takeChar p).state rest (input p).blocked
  takeChar_exhausted : (Channel.takeChar p).result = .error .inputExhausted ↔
    (input p).ahead = [] ∧ (input p).blocked = []
  takeChar_kept : (input p).ahead = [] → (input p).blocked = [] →
    input (Channel.takeChar p).state = input p
  /-- A line that is no text is lost, and the lines after it are not. -/
  takeChar_blocked : ∀ line lines, (input p).ahead = [] → (input p).blocked = line :: lines →
    Text.decode? line = none ∧ (Channel.takeChar p).result = .error (.stream .invalidText) ∧
      input (Channel.takeChar p).state = ⟨[], lines.flatten⟩
  /-- The first digit is found, and the characters in front of it are dropped. -/
  takeDigit : ∀ front c rest, (input p).ahead = front ++ c :: rest →
    (∀ x ∈ front, x.isDigit = false) → c.isDigit = true →
    (Channel.takeDigit p).result = .ok (c.toNat - '0'.toNat) ∧
      Shows (Channel.takeDigit p).state rest (input p).blocked
  takeDigit_exhausted : (∀ x ∈ (input p).ahead, x.isDigit = false) → (input p).blocked = [] →
    (Channel.takeDigit p).result = .error .inputExhausted ∧
      input (Channel.takeDigit p).state = ⟨(input p).ahead, []⟩
  /-- Here too just the line is lost. The characters before it were taken and are put back. -/
  takeDigit_blocked : (∀ x ∈ (input p).ahead, x.isDigit = false) →
    ∀ line lines, (input p).blocked = line :: lines →
    Text.decode? line = none ∧ (Channel.takeDigit p).result = .error (.stream .invalidText) ∧
      input (Channel.takeDigit p).state = ⟨(input p).ahead, lines.flatten⟩
  returnChar : ∀ c, Shows (Channel.returnChar c p) (c :: (input p).ahead) (input p).blocked
  returnDigit : ∀ d, Shows (Channel.returnDigit d p)
    (Char.ofNat ('0'.toNat + d % 10) :: (input p).ahead) (input p).blocked
  emit : ∀ text, input (Channel.emit text p).state = input p
  retract : ∀ text, input (Channel.retract text p).state = input p

theorem Unlimited.unbuffered {p : π} (hp : Unlimited p) : Unbuffered p where
  readable := Input.blocked_eq_nil_iff.symm
  remaining := Input.Readable.ahead_eq
  takeChar _ _ := takeChar_of_cons hp
  takeChar_exhausted := by
    constructor
    · intro hfail
      rcases (input p).next_cases with ⟨c, _, _, hcons, _⟩ | ⟨_, hnil, hblocked, _⟩ |
        ⟨_, _, _, hnil, hcons⟩
      · cases hfail.symm.trans (takeChar_of_cons hp hcons).1
      · exact ⟨hnil, hblocked⟩
      · cases hfail.symm.trans (takeChar_of_blocked hp hnil hcons).1
    · rintro ⟨hahead, hblocked⟩
      exact (takeChar_of_exhausted hp hahead hblocked).1
  takeChar_kept hahead hblocked := (takeChar_of_exhausted hp hahead hblocked).2
  takeChar_blocked _ _ hahead hblocked :=
    ⟨Input.decode?_of_blocked hblocked, takeChar_of_blocked hp hahead hblocked⟩
  takeDigit _ _ _ := takeDigit_of_digit hp
  takeDigit_exhausted := takeDigit_of_exhausted hp
  takeDigit_blocked hnone _ _ hblocked :=
    ⟨Input.decode?_of_blocked hblocked, takeDigit_of_blocked hp hnone hblocked⟩
  returnChar c := by
    rw [Shows, input, OnConsole.returnChar]
    exact ⟨rfl, rfl⟩
  returnDigit d := by
    rw [Shows, input, OnConsole.returnDigit, ← Text.digitChar_eq]
    exact ⟨rfl, rfl⟩
  emit text := (OnConsole.emit text p).1
  retract text := (OnConsole.retract text p).1

/-- **Lines do not show** at a terminal or at a transcript that can always prompt, whatever has been
asked of it. -/
theorem unbuffered_afterAll :
    (∀ t : Terminal, t.console.sink.capacity = none →
      ∀ requests, Unbuffered (Channel.afterAll t requests)) ∧
    ∀ t : Transcript, t.console.sink.capacity = none →
      ∀ requests, Unbuffered (Channel.afterAll t requests) := by
  constructor
  · intro t ht requests
    exact (Unlimited.afterAll (p := t) ht requests).unbuffered
  · intro t ht requests
    exact (Unlimited.afterAll (p := t) ht requests).unbuffered

/-- A terminal with a queue, and with a line that is no text among its lines. -/
def garbled : Terminal :=
  ⟨{ input := { pending := ['a'], unread := [98, 10, 255, 10, 55, 10] } }⟩

/-- Of 13 the 3 is put back. The first search ends at the line that is no text, which is lost, and
the second finds the 7 behind it. -/
theorem unbuffered_afterAll_garbled :
    let second := Channel.afterAll garbled [.takeDigit]
    garbled.console.sink.capacity = none ∧
      Unbuffered (Channel.afterAll garbled [.returnDigit 13, .takeDigit]) ∧
      Shows (Channel.returnDigit 13 garbled) ['3', 'a', 'b', '\n'] [[255, 10], [55, 10]] ∧
      (Channel.takeDigit garbled).result = .error (.stream .invalidText) ∧
      input second = ⟨['a', 'b', '\n'], [55, 10]⟩ ∧
      (Channel.takeDigit second).result = .ok 7 ∧
      Shows (Channel.takeDigit second).state ['\n'] [] := by
  intro second
  have hunlimited : garbled.console.sink.capacity = none := rfl
  have hgarbled := unbuffered_afterAll.1 garbled hunlimited
  have hnone : ∀ x ∈ (input garbled).ahead, x.isDigit = false := by
    rw [show (input garbled).ahead = ['a', 'b', '\n'] by decide]
    simp
  have hblocked : (input garbled).blocked = [[255, 10], [55, 10]] := by decide
  obtain ⟨_, hfault, hinput⟩ := (hgarbled []).takeDigit_blocked hnone _ _ hblocked
  have hsecond : input second = ⟨['a', 'b', '\n'], [55, 10]⟩ := hinput
  have hahead : (input second).ahead = ['a', 'b', '\n'] ++ '7' :: ['\n'] := by
    rw [hsecond]
    decide
  have hnil : (input second).blocked = [] := by
    rw [hsecond]
    decide
  obtain ⟨hseven, hrest⟩ := (hgarbled [.takeDigit]).takeDigit _ _ _ hahead (by simp) (by decide)
  rw [show (input (Channel.afterAll garbled [.takeDigit])).blocked = [] from hnil] at hrest
  exact ⟨hunlimited, hgarbled _, (hgarbled []).returnDigit 13, hfault, hsecond, hseven, hrest⟩

end OnConsole

end Retrace

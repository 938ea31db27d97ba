import ShellAlias.Json.Skip
import ShellAlias.Proofs.Json.Token

namespace ShellAlias.Json

def IsDigits (text : Text) : Prop := text ≠ [] ∧ ∀ c ∈ text, c.isDigit = true

instance (text : Text) : Decidable (IsDigits text) :=
  @instDecidableAnd _ _ inferInstance (List.decidableBAll (fun c => c.isDigit = true) text)

/-- The digits before a point, which start with a zero only if it is all there is. -/
def IsWhole (text : Text) : Prop := text = ['0'] ∨ IsDigits text ∧ text.head? ≠ some '0'

instance (text : Text) : Decidable (IsWhole text) := inferInstanceAs (Decidable (_ ∨ _))

inductive IsFraction : Text → Prop where
  | none : IsFraction []
  | point {places : Text} (hp : IsDigits places) : IsFraction ('.' :: places)

inductive IsExponent : Text → Prop where
  | none : IsExponent []
  | power {letter : Char} {sign places : Text} (hl : letter = 'e' ∨ letter = 'E')
      (hs : sign = [] ∨ sign = ['+'] ∨ sign = ['-']) (hp : IsDigits places) :
      IsExponent (letter :: (sign ++ places))

inductive IsNumber : Text → Prop where
  | parts {sign whole fraction exponent : Text} (hs : sign = [] ∨ sign = ['-'])
      (hw : IsWhole whole) (hf : IsFraction fraction) (he : IsExponent exponent) :
      IsNumber (sign ++ (whole ++ (fraction ++ exponent)))

/-- What may stand between quotes. An escaped surrogate may stand alone here. -/
inductive IsBody : Text → Prop where
  | nil : IsBody []
  | plain {c : Char} {text : Text} (hc : IsPlainChar c) (others : IsBody text) : IsBody (c :: text)
  | short {letter c : Char} {text : Text} (hc : (letter, c) ∈ shortEscapes)
      (others : IsBody text) : IsBody ('\\' :: letter :: text)
  | unit {digits text : Text} {n : Nat} (hn : IsUnit digits n) (others : IsBody text) :
      IsBody ('\\' :: 'u' :: (digits ++ text))

inductive IsLabel : Frame → Text → Prop where
  | list : IsLabel .list []
  | object {before name gap : Text} (hb : IsSpace before) (hn : IsBody name) (hg : IsSpace gap) :
      IsLabel .object (before ++ '"' :: (name ++ '"' :: (gap ++ [':'])))

def Frame.opening : Frame → Char
  | .list => '['
  | .object => '\x7b'

inductive Nonterminal where
  | value
  | items (frame : Frame)

/-- The grammar of values, of any depth and with space between all parts. -/
inductive Derives : Nonterminal → Text → Prop where
  | word {text : Text} (h : text ∈ ["null".toList,"true".toList,"false".toList]) :
      Derives .value text
  | number {text : Text} (h : IsNumber text) : Derives .value text
  | string {body : Text} (h : IsBody body) : Derives .value ('"' :: (body ++ ['"']))
  | empty (frame : Frame) {space : Text} (hs : IsSpace space) :
      Derives .value (frame.opening :: (space ++ [frame.closing]))
  | filled {frame : Frame} {text : Text} (h : Derives (.items frame) text) :
      Derives .value (frame.opening :: (text ++ [frame.closing]))
  | last {frame : Frame} {label before value after : Text} (hl : IsLabel frame label)
      (hb : IsSpace before) (hv : Derives .value value) (ha : IsSpace after) :
      Derives (.items frame) (label ++ (before ++ (value ++ after)))
  | next {frame : Frame} {label before value after others : Text} (hl : IsLabel frame label)
      (hb : IsSpace before) (hv : Derives .value value) (ha : IsSpace after)
      (ho : Derives (.items frame) others) :
      Derives (.items frame) (label ++ (before ++ (value ++ (after ++ ',' :: others))))

end ShellAlias.Json

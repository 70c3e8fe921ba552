/-!
# Quoted labels

The label of a node or an arrow stands between double quotes in the text of a
drawing. Writing puts a backslash before every quote in the label and leaves all
else as it is, backslashes included. Reading takes a backslash together with a
quote or a backslash behind it, and ends at the first quote that is left over.
-/

namespace Acceptor.Drawing

/-- The characters of a label, each quote behind a backslash. -/
def labelBody (label : List Char) : List Char :=
  label.flatMap fun c => if c = '"' then ['\\', '"'] else [c]

def quotedLabel (label : String) : String :=
  String.ofList ('"' :: (labelBody label.toList ++ ['"']))

/-- Reads a label from behind its opening quote: the label, in which a backslash and a
quote count as a quote, and what follows the closing quote. -/
def readLabel? : List Char → Option (List Char × List Char)
  | [] => none
  | '\\' :: '"' :: rest => (readLabel? rest).map fun (label, rest) => ('"' :: label, rest)
  | '\\' :: '\\' :: rest => (readLabel? rest).map fun (label, rest) => ('\\' :: '\\' :: label, rest)
  | c :: rest =>
    if c = '"' then some ([], rest)
    else (readLabel? rest).map fun (label, rest) => (c :: label, rest)

theorem labelBody_cons (c : Char) (label : List Char) :
    labelBody (c :: label) = (if c = '"' then ['\\', '"'] else [c]) ++ labelBody label := rfl

end Acceptor.Drawing

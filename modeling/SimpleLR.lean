import SimpleLR.CommandLine
import SimpleLR.Grammar.Derivation
import SimpleLR.Main
import SimpleLR.Service
import SimpleLR.Proofs.Automaton.Machine
import SimpleLR.Proofs.Grammar.BatchForm
import SimpleLR.Proofs.Listing.ReadBack
import SimpleLR.Proofs.Lookahead.ExactFollow
import SimpleLR.Proofs.Markup.Pages
import SimpleLR.Proofs.Parser.Client
import SimpleLR.Proofs.Parser.Earliest
import SimpleLR.Proofs.Parser.Repetition
import SimpleLR.Proofs.Parser.Replay
import SimpleLR.Proofs.Table.Unreachable
import SimpleLR.Proofs.Grammar.Conservative
import SimpleLR.Proofs.Lookahead.Nullable
import SimpleLR.Proofs.Grammar.Reordering
import SimpleLR.Proofs.Automaton.Renumbering
import SimpleLR.Proofs.Table.Reordering
import SimpleLR.Proofs.Faultless
import SimpleLR.Proofs.Table.Indexed
import SimpleLR.Proofs.Listing.Indexed
import SimpleLR.Proofs.Lookahead.EndMark
import SimpleLR.Proofs.Grammar.Catalogue
import SimpleLR.Proofs.Grammar.Transcript
import SimpleLR.Automaton.Construction
import SimpleLR.Proofs.Automaton.Construction
import SimpleLR.Proofs.Automaton.Agreement
import SimpleLR.Proofs.Lookahead.Propagation
import SimpleLR.Proofs.Listing.ItemTexts
import SimpleLR.Proofs.Listing.TableLines
import SimpleLR.Proofs.Listing.Formulas

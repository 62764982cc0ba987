import PageScript.Build
import PageScript.LogLevel
import PageScript.Proofs.Class.Constants
import PageScript.Proofs.Class.Registration
import PageScript.Proofs.Compile.EmissionOrder
import PageScript.Proofs.Compile.Locales
import PageScript.Proofs.Compile.Opacity
import PageScript.Proofs.Compile.RequireOrder
import PageScript.Proofs.Compile.Staying
import PageScript.Proofs.Compile.Deferral
import PageScript.Proofs.Directive.Client
import PageScript.Proofs.Locale.Merging
import PageScript.Proofs.Module.Declaration
import PageScript.Proofs.Module.Discovery
import PageScript.Proofs.Page.Assets
import PageScript.Proofs.Page.Links
import PageScript.Proofs.Page.References
import PageScript.Proofs.Page.Reservation
import PageScript.Proofs.Page.Splicing
import PageScript.Proofs.Page.Termination
import PageScript.Proofs.Plugin.Search
import PageScript.Proofs.Script.Quoted
import PageScript.Proofs.Template.Closure
import PageScript.Proofs.Template.Indentation
import PageScript.Proofs.Template.Names
import PageScript.Proofs.Tree.Location
import PageScript.Script.Errors

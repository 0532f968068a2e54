import Localization.DateTime.Formats
import Localization.Generation.ConfigText
import Localization.Proofs.Generation.Reuse
import Localization.Selector.Parse
import Localization.DateTime.Catalog
import Localization.Proofs.Cache.ComputedOnce
import Localization.Proofs.Cache.Successes
import Localization.Proofs.Lookup.Inheritance
import Localization.Proofs.Lookup.Count
import Localization.Proofs.Cache.Sequential
import Localization.Proofs.Lookup.Effective
import Localization.Proofs.Properties.RoundTrip
import Localization.Proofs.Locale.Grammar
import Localization.Proofs.Properties.Composition
import Localization.Proofs.Locale.Written
import Localization.Proofs.Catalog.Insertion
import Localization.Proofs.Catalog.Extension
import Localization.Generation.History
import Localization.Proofs.Generation.Emission
import Localization.Proofs.Generation.Accounting
import Localization.Proofs.Generation.Source
import Localization.Proofs.Discovery.FileName
import Localization.Proofs.Bundle.Declared
import Localization.Proofs.Discovery.Folder
import Localization.Proofs.Discovery.WholeName
import Localization.Proofs.Cache.Leftover
import Localization.Proofs.DateTime.Complete
import Localization.Proofs.Locale.Prefix
import Localization.Proofs.Lookup.Policy
import Localization.Proofs.Lookup.Table
import Localization.Proofs.Bundle.Conflict
import Localization.Proofs.Properties.Layout
import Localization.Proofs.Properties.Escaped
import Localization.Proofs.Properties.Name
import Localization.Proofs.Properties.Resolved
import Localization.Proofs.Properties.Alignment
import Localization.Proofs.Properties.Brackets
import Localization.Proofs.DateTime.Glue
import Localization.Proofs.DateTime.Contents
import Localization.Proofs.Generation.Precedence
import Localization.Proofs.Generation.Validity
import Localization.Proofs.Locale.Spelling
import Localization.Proofs.Value.Items
import Localization.Proofs.Plural.Category
import Localization.Proofs.Lookup.ExactCount
import Localization.Proofs.Generation.Lines
